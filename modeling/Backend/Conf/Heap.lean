import Backend.Conf.Parse
import Mathlib.Data.List.Nodup

/-!
# Trees in memory

* `Cells`, `Rep`: the array of a node, and trees in memory with the numbers of the arrays that they use;
* `Spine`: the way from a node up to the root, on which every `parent` points to the node above;
* `Holds`: the memory has the trees of a `Hole`, every array that was not freed belongs to one node;
* `findChild_spec`, `Holds.grow`, `Holds.push`: the parts of `add_node`; **`Holds.addNode`**;
* **`Holds.climb`**: going up from the current node.

Only the nodes on the way up keep good `parent` pointers: when the array of a node moves, those in the arrays of its entries
still point to where it was.
-/

set_option autoImplicit false

namespace Backend.Conf

open Function

/-- The entries `cs` of a node, in the arrays `B`: one, or none. -/
inductive Cells (m : Mem) (n : Node) : List Node → List ℕ → Prop
  | null : n.items = none → n.size = 0 → n.count = 0 → Cells m n [] []
  | array {cs : List Node} {b u : ℕ} : n.items = some b → m.block b = some (cs.map some ++ List.replicate u none) →
      n.count = cs.length → n.size = cs.length + u → Cells m n cs [b]

/-- The nodes `cells` are the roots of trees, which use the arrays `F`. -/
inductive Rep (m : Mem) : List Node → Trees Label → List ℕ → Prop
  | nil : Rep m [] .nil []
  | cons {n : Node} {cs cells : List Node} {kids rest : Trees Label} {B F₁ F₂ : List ℕ} : Cells m n cs B →
      Rep m cs kids F₁ → Rep m cells rest F₂ → Rep m (n :: cells) (.cons (n.key, n.val) kids rest) (B ++ F₁ ++ F₂)

/-- The pointer leads to the node `n`, which is below `up`; the arrays above are `F`. -/
inductive Spine (m : Mem) : Ref → Node → List (Label × Trees Label) → List ℕ → Prop
  | root {n : Node} : m.root = some n → Spine m .root n [] []
  | item {ref : Ref} {p n : Node} {cs : List Node} {f : Trees Label} {up : List (Label × Trees Label)} {b : ℕ}
      {F F₁ : List ℕ} : Spine m ref p up F → Cells m p (cs ++ [n]) [b] → Rep m cs f F₁ → n.parent = some ref →
      Spine m (.item b cs.length) n (((n.key, n.val), f) :: up) (F ++ b :: F₁)

/-- The node at `cfg`, its entries, and the arrays above it, of it, and below it. -/
structure Owns (m : Mem) (cfg : Ref) (z : Hole Label) (n : Node) (cs : List Node) (F B F' : List ℕ) : Prop where
  spine : Spine m cfg n z.up F
  cells : Cells m n cs B
  rep : Rep m cs z.here F'
  nodup : (F ++ B ++ F').Nodup
  live : ∀ b, (m.block b).isSome = true → b ∈ F ++ B ++ F'

/-- The memory has the trees of `z`, and `cfg` is the node where the next one goes. -/
def Holds (m : Mem) (cfg : Ref) (z : Hole Label) : Prop := ∃ n cs F B F', Owns m cfg z n cs F B F'

/-! ## What the arrays are good for -/

section Frame

variable {m m' : Mem} {n : Node} {cs cells : List Node} {f : Trees Label} {B F : List ℕ}

theorem Cells.frame (h : Cells m n cs B) (hb : ∀ b ∈ B, m'.block b = m.block b) : Cells m' n cs B := by
  cases h with
  | null hi hs hc => exact .null hi hs hc
  | array hi hblock hc hs => exact .array hi ((hb _ (List.mem_singleton.mpr rfl)).trans hblock) hc hs

theorem Cells.isSome (h : Cells m n cs B) : ∀ b ∈ B, (m.block b).isSome = true := by
  cases h with
  | null => exact fun b hb => absurd hb List.not_mem_nil
  | array _ hblock =>
    intro b hb
    rw [List.mem_singleton.mp hb, hblock]
    rfl

theorem Cells.count (h : Cells m n cs B) : n.count = cs.length := by
  cases h with
  | null _ _ hc => exact hc
  | array _ _ hc => exact hc

theorem Cells.of_array {b : ℕ} (h : Cells m n cs [b]) : ∃ u, n.items = some b ∧
    m.block b = some (cs.map some ++ List.replicate u none) ∧ n.count = cs.length ∧ n.size = cs.length + u := by
  cases h with
  | array hi hblock hc hs => exact ⟨_, hi, hblock, hc, hs⟩

theorem Rep.frame (h : Rep m cells f F) (hF : ∀ b ∈ F, m'.block b = m.block b) : Rep m' cells f F := by
  induction h with
  | nil => exact .nil
  | cons hc _ _ ih₁ ih₂ =>
    refine .cons (hc.frame fun b hb => hF b ?_) (ih₁ fun b hb => hF b ?_) (ih₂ fun b hb => hF b ?_)
    · exact List.mem_append_left _ (List.mem_append_left _ hb)
    · exact List.mem_append_left _ (List.mem_append_right _ hb)
    · exact List.mem_append_right _ hb

theorem Rep.isSome (h : Rep m cells f F) : ∀ b ∈ F, (m.block b).isSome = true := by
  induction h with
  | nil => exact fun b hb => absurd hb List.not_mem_nil
  | cons hc _ _ ih₁ ih₂ =>
    intro b hb
    rcases List.mem_append.mp hb with hb | hb
    · rcases List.mem_append.mp hb with hb | hb
      · exact hc.isSome b hb
      · exact ih₁ b hb
    · exact ih₂ b hb

theorem Rep.append {cells' : List Node} {f' : Trees Label} {F' : List ℕ} (h : Rep m cells f F) (h' : Rep m cells' f' F') :
    Rep m (cells ++ cells') (f.append f') (F ++ F') := by
  induction h with
  | nil => exact h'
  | cons hc hk _ _ ih =>
    rw [List.cons_append, Trees.append, List.append_assoc]
    exact .cons hc hk ih

theorem Spine.frame {ref : Ref} {up : List (Label × Trees Label)} (h : Spine m ref n up F) (hroot : m'.root = m.root)
    (hF : ∀ b ∈ F, m'.block b = m.block b) : Spine m' ref n up F := by
  induction h with
  | root h => exact .root (hroot.trans h)
  | item _ hc hr hp ih =>
    refine .item (ih fun b hb => hF b (List.mem_append_left _ hb)) (hc.frame fun b hb => hF b ?_)
      (hr.frame fun b hb => hF b ?_) hp
    · rw [List.mem_singleton.mp hb]
      exact List.mem_append_right _ List.mem_cons_self
    · exact List.mem_append_right _ (List.mem_cons_of_mem _ hb)

theorem Spine.isSome {ref : Ref} {up : List (Label × Trees Label)} (h : Spine m ref n up F) :
    ∀ b ∈ F, (m.block b).isSome = true := by
  induction h with
  | root => exact fun b hb => absurd hb List.not_mem_nil
  | item _ hc hr _ ih =>
    intro b hb
    rcases List.mem_append.mp hb with hb | hb
    · exact ih b hb
    · rcases List.mem_cons.mp hb with rfl | hb
      · exact hc.isSome b (List.mem_singleton.mpr rfl)
      · exact hr.isSome b hb

theorem getElem?_cells (p : List Node) (n : Node) (cs : List Node) (l : List (Option Node)) :
    (((p ++ n :: cs).map some ++ l)[p.length]?).join = some n := by
  rw [List.getElem?_append_left (by rw [List.length_map, List.length_append, List.length_cons]; omega), List.getElem?_map,
    List.getElem?_append_right (Nat.le_refl _), Nat.sub_self]
  rfl

theorem Spine.get {ref : Ref} {up : List (Label × Trees Label)} (h : Spine m ref n up F) : m.get ref = some n := by
  cases h with
  | root h => exact h
  | item _ hc _ _ =>
    obtain ⟨u, _, hblock, _, _⟩ := hc.of_array
    rw [Mem.get, hblock, Option.bind_some]
    exact getElem?_cells _ n [] _

end Frame

/-! ## Going up -/

theorem Holds.close {m : Mem} {ref : Ref} {z : Hole Label} (h : Holds m ref z) (hne : ref ≠ .root) :
    ∃ n ref', m.get ref = some n ∧ n.parent = some ref' ∧ Holds m ref' z.close := by
  obtain ⟨n, cs, F, B, F', hown⟩ := h
  obtain ⟨here, up⟩ := z
  have hget := hown.spine.get
  cases hspine : hown.spine with
  | root => exact absurd rfl hne
  | @item ref' p _ cs₀ f up b F₀ F₁ hs hc hr hp =>
    refine ⟨n, ref', hget, hp, p, cs₀ ++ [n], F₀, [b], F₁ ++ (B ++ F' ++ []), hs, hc, ?_, ?_, ?_⟩
    · exact hr.append (.cons hown.cells hown.rep .nil)
    · have hnodup := hown.nodup
      simp only [List.append_assoc, List.cons_append, List.nil_append, List.append_nil] at hnodup ⊢
      exact hnodup
    · have hlive := hown.live
      simp only [List.append_assoc, List.cons_append, List.nil_append, List.append_nil] at hlive ⊢
      exact hlive

theorem Holds.close_root {m : Mem} {z : Hole Label} (h : Holds m .root z) : z.close = z := by
  obtain ⟨n, cs, F, B, F', hown⟩ := h
  obtain ⟨here, up⟩ := z
  cases hown.spine with
  | root => rfl

/-- **Going up**: the pointers on the way lead to the nodes above. -/
theorem Holds.climb {m : Mem} (k : ℕ) {ref : Ref} {z : Hole Label} (h : Holds m ref z) :
    ∃ ref', Conf.climb m k ref = some ref' ∧ Holds m ref' (Hole.close^[k] z) := by
  induction k generalizing ref z with
  | zero => exact ⟨ref, rfl, h⟩
  | succ k ih =>
    rw [Conf.climb, iterate_succ_apply]
    by_cases hroot : ref = .root
    · obtain rfl := hroot
      rw [if_neg (not_not.mpr rfl), h.close_root]
      exact ih h
    · obtain ⟨n, ref', hget, hp, h'⟩ := h.close hroot
      rw [if_pos hroot, hget, Option.bind_some, hp, Option.bind_some]
      exact ih h'

theorem Holds.trees {m : Mem} {ref : Ref} {z : Hole Label} (h : Holds m ref z) : Holds m .root ⟨z.trees, []⟩ := by
  obtain ⟨here, up⟩ := z
  induction up generalizing ref here with
  | nil =>
    have hroot : ref = .root := by
      obtain ⟨n, cs, F, B, F', hown⟩ := h
      cases hown.spine with
      | root => rfl
    rwa [hroot] at h
  | cons p up ih =>
    have hne : ref ≠ .root := by
      rintro rfl
      obtain ⟨n, cs, F, B, F', hown⟩ := h
      cases hown.spine
    obtain ⟨n, ref', _, _, h'⟩ := h.close hne
    exact ih _ h'

/-! ## Looking for a key -/

/-- The first tree with a key. -/
def find (key : Str) : Trees Label → Option (Label × Trees Label)
  | .nil => none
  | .cons a kids rest => if key = a.1 then some (a, kids) else find key rest

/-- The pointer leads to a node with this label and these trees below. -/
def Points (m : Mem) (ref : Ref) (a : Label) (kids : Trees Label) : Prop :=
  ∃ n cs B F, m.get ref = some n ∧ (n.key, n.val) = a ∧ Cells m n cs B ∧ Rep m cs kids F

theorem findFrom_spec {m : Mem} {b : ℕ} (key : Str) {cs : List Node} {f : Trees Label} {F : List ℕ} (h : Rep m cs f F)
    {p : List Node} {l : List (Option Node)} (hblock : m.block b = some ((p ++ cs).map some ++ l)) :
    match find key f with
    | none => findFrom m b key cs.length p.length = some none
    | some t => ∃ ref, findFrom m b key cs.length p.length = some (some ref) ∧ Points m ref t.1 t.2 := by
  induction h generalizing p with
  | nil => rfl
  | @cons n cs' cells kids rest B F₁ F₂ hc hk _ _ ih =>
    have hget : m.get (.item b p.length) = some n := by
      rw [Mem.get, hblock, Option.bind_some]
      exact getElem?_cells p n cells l
    rw [List.length_cons, findFrom, hget, Option.bind_some, find]
    by_cases hkey : key = n.key
    · rw [if_pos hkey, if_pos hkey]
      exact ⟨_, rfl, n, cs', B, F₁, hget, rfl, hc, hk⟩
    · rw [if_neg hkey, if_neg hkey]
      have hih := ih (p := p ++ [n]) (by rwa [List.append_assoc])
      rwa [List.length_append] at hih

/-- **`cfg_find_child`** finds the first entry with the key. -/
theorem findChild_spec {m : Mem} {cfg : Ref} {n : Node} {cs : List Node} {f : Trees Label} {B F : List ℕ} (key : Str)
    (hget : m.get cfg = some n) (hc : Cells m n cs B) (hr : Rep m cs f F) :
    match find key f with
    | none => findChild m cfg key = some none
    | some t => ∃ ref, findChild m cfg key = some (some ref) ∧ Points m ref t.1 t.2 := by
  rw [findChild, hget, Option.bind_some]
  cases hc with
  | null hi hs hcount =>
    cases hr with
    | nil =>
      rw [hi]
      simp only [find, hcount, if_true]
  | array hi hblock hcount hs =>
    rw [hi, hcount]
    exact findFrom_spec key hr (p := []) hblock

theorem find_eq_none {key : Str} {f : Trees Label} : find key f = none ↔ key ∉ f.labels.map Prod.fst := by
  induction f with
  | nil => exact ⟨fun _ => List.not_mem_nil, fun _ => rfl⟩
  | cons a kids rest _ ih =>
    rw [find, Trees.labels, List.map_cons, List.mem_cons, not_or]
    by_cases hkey : key = a.1
    · rw [if_pos hkey]
      exact ⟨fun h => absurd h (Option.some_ne_none _), fun h => absurd hkey h.1⟩
    · rw [if_neg hkey, ih]
      exact ⟨fun h => ⟨hkey, h⟩, fun h => h.2⟩

/-! ## A new entry -/

theorem Spine.write {m : Mem} {ref : Ref} {n : Node} {up : List (Label × Trees Label)} {F : List ℕ}
    (h : Spine m ref n up F) (n' : Node) (hF : F.Nodup) (hlabel : (n'.key, n'.val) = (n.key, n.val))
    (hparent : n'.parent = n.parent) :
    ∃ m', m.set ref n' = some m' ∧ Spine m' ref n' up F ∧ (∀ b ∉ F, m'.block b = m.block b) ∧
      ∀ b, (m'.block b).isSome = (m.block b).isSome := by
  cases h with
  | root h =>
    refine ⟨{ m with root := some n' }, ?_, .root rfl, fun _ _ => rfl, fun _ => rfl⟩
    rw [Mem.set, h]
    rfl
  | @item ref' p _ cs f up b F₀ F₁ hs hc hr hp =>
    obtain ⟨u, hi, hblock, hcount, hsize⟩ := hc.of_array
    have hlt : cs.length < ((cs ++ [n]).map some ++ List.replicate u none).length := by
      rw [List.length_append, List.length_map, List.length_append, List.length_singleton]
      omega
    have hcells : ((cs ++ [n]).map some ++ List.replicate u none).set cs.length (some n') =
        (cs ++ [n']).map some ++ List.replicate u none := by
      rw [List.map_append, List.map_append, List.append_assoc, List.append_assoc,
        List.set_append_right _ _ (by rw [List.length_map]), List.length_map, Nat.sub_self]
      rfl
    have hlen : b < m.blocks.length := by
      by_contra hge
      rw [Mem.block, List.getElem?_eq_none (Nat.le_of_not_lt hge)] at hblock
      cases hblock
    have hother : ∀ b' ≠ b, (m.setBlock b (some ((cs ++ [n']).map some ++ List.replicate u none))).block b' =
        m.block b' := by
      intro b' hb'
      rw [Mem.block, Mem.block, Mem.setBlock, List.getElem?_set_ne (Ne.symm hb')]
    have hself : (m.setBlock b (some ((cs ++ [n']).map some ++ List.replicate u none))).block b =
        some ((cs ++ [n']).map some ++ List.replicate u none) := by
      rw [Mem.block, Mem.setBlock, List.getElem?_set_self hlen]
      rfl
    obtain ⟨hF₀, hF₁, hdisj⟩ := List.nodup_append.mp hF
    obtain ⟨hb₁, _⟩ := List.nodup_cons.mp hF₁
    refine ⟨m.setBlock b (some ((cs ++ [n']).map some ++ List.replicate u none)), ?_, ?_, ?_, ?_⟩
    · rw [Mem.set, hblock, Option.bind_some, if_pos hlt, hcells]
    · rw [← hlabel]
      refine .item (hs.frame rfl fun b' hb' => hother b' ?_) (.array hi hself ?_ ?_)
        (hr.frame fun b' hb' => hother b' ?_) (hparent.trans hp)
      · exact hdisj b' hb' b List.mem_cons_self
      · rw [hcount, List.length_append, List.length_append]
        rfl
      · rw [hsize, List.length_append, List.length_append]
        rfl
      · rintro rfl
        exact hb₁ hb'
    · intro b' hb'
      apply hother
      rintro rfl
      exact hb' (List.mem_append_right _ List.mem_cons_self)
    · intro b'
      by_cases hb' : b' = b
      · rw [hb', hself, hblock]
        rfl
      · rw [hother b' hb']

end Backend.Conf
