import Backend.Conf.Heap
import Mathlib.Data.List.Perm.Subperm

/-!
# Loading a file

* `realloc_spec`, `Holds.grow`, `Holds.push`: the parts of `add_node`; **`Holds.addNode`**;
* `Rel`: the variables of `cfg_load_file` against those of `parseLoop`; `Rel.line`, `Rel.loop`;
* `Loaded`: the memory has just these trees; `Loaded.free`: `cfg_free` frees every array once;
* **`cfgLoadFile_spec`**: whatever the file is and wherever `realloc` puts the arrays, loading reads and writes only what is
  there, gives the trees of the file, and leaves nothing behind when the file is refused.
-/

set_option autoImplicit false

namespace Backend.Conf

open Function

/-! ## Arrays -/

section Memory

variable {m : Mem} {b b' : ℕ} {cells : Option (List (Option Node))}

theorem lt_of_isSome (h : (m.block b).isSome = true) : b < m.blocks.length := by
  by_contra hge
  rw [Mem.block, List.getElem?_eq_none (Nat.le_of_not_lt hge)] at h
  cases h

theorem block_setBlock_self (h : b < m.blocks.length) : (m.setBlock b cells).block b = cells := by
  rw [Mem.block, Mem.setBlock, List.getElem?_set_self h]
  rfl

theorem block_setBlock_ne (h : b' ≠ b) : (m.setBlock b cells).block b' = m.block b' := by
  rw [Mem.block, Mem.block, Mem.setBlock, List.getElem?_set_ne (Ne.symm h)]

theorem block_append_self {root : Option Node} {blocks : List (Option (List (Option Node)))} :
    Mem.block ⟨root, blocks ++ [cells]⟩ blocks.length = cells := by
  rw [Mem.block, List.getElem?_append_right (Nat.le_refl _), Nat.sub_self]
  rfl

theorem block_append_ne {root : Option Node} {blocks : List (Option (List (Option Node)))} (h : b ≠ blocks.length) :
    Mem.block ⟨root, blocks ++ [cells]⟩ b = Mem.block ⟨root, blocks⟩ b := by
  rcases Nat.lt_or_ge b blocks.length with hlt | hge
  · rw [Mem.block, Mem.block, List.getElem?_append_left hlt]
  · rw [Mem.block, Mem.block, List.getElem?_eq_none hge, List.getElem?_eq_none (by
      rw [List.length_append, List.length_singleton]
      omega)]

theorem block_fresh : m.block m.blocks.length = none := by
  rw [Mem.block, List.getElem?_eq_none (Nat.le_refl _)]
  rfl

end Memory

/-- **`realloc`** keeps the entries and adds room; the old array can no longer be read if it moves. -/
theorem realloc_spec (moves : Bool) {m : Mem} {n : Node} {cs : List Node} {B : List ℕ} (h : Cells m n cs B)
    (hfull : n.size = n.count) :
    ∃ m' b', realloc moves m n.items (n.size * 2 + 5) = some (m', b') ∧ m'.root = m.root ∧
      m'.block b' = some (cs.map some ++ List.replicate (cs.length + 5) none) ∧
      (∀ b, b ∉ B → b ≠ b' → m'.block b = m.block b) ∧ (b' ∈ B ∨ m.block b' = none) ∧
      ∀ b ∈ B, b ≠ b' → m'.block b = none := by
  cases h with
  | null hi hs hc =>
    refine ⟨{ m with blocks := m.blocks ++ [some (List.replicate (n.size * 2 + 5) none)] }, m.blocks.length,
      by rw [hi]; rfl, rfl, ?_, fun b _ hb => block_append_ne hb, .inr block_fresh, fun b hb => absurd hb List.not_mem_nil⟩
    rw [block_append_self, hs]
    rfl
  | @array _ b u hi hblock hc hs =>
    have hu : u = 0 := by omega
    have hlt : b < m.blocks.length := lt_of_isSome (by rw [hblock]; rfl)
    have hcells : (cs.map some).take (n.size * 2 + 5) ++ List.replicate (n.size * 2 + 5 - (cs.map some).length) none =
        cs.map some ++ List.replicate (cs.length + 5) (none : Option Node) := by
      rw [List.take_of_length_le (by rw [List.length_map]; omega), List.length_map]
      congr 2
      omega
    rw [hi, realloc, hblock, hu, List.replicate_zero, List.append_nil, Option.map_some]
    simp only [hcells]
    generalize some (cs.map some ++ List.replicate (cs.length + 5) (none : Option Node)) = cells
    cases moves with
    | true =>
      refine ⟨{ m with blocks := m.blocks.set b none ++ [cells] }, m.blocks.length, by rw [if_pos rfl], rfl, ?_, ?_,
        .inr block_fresh, ?_⟩
      · have hlen : m.blocks.length = (m.blocks.set b none).length := List.length_set.symm
        rw [hlen]
        exact block_append_self
      · intro b' hb' hne
        rw [block_append_ne (by rwa [List.length_set])]
        exact block_setBlock_ne fun h => hb' (List.mem_singleton.mpr h)
      · intro b' hb' hne
        rw [block_append_ne (by rwa [List.length_set]), List.mem_singleton.mp hb']
        exact block_setBlock_self hlt
    | false =>
      refine ⟨m.setBlock b cells, b, by rw [if_neg Bool.false_ne_true], rfl, block_setBlock_self hlt,
        fun b' _ hne => block_setBlock_ne hne, .inl (List.mem_singleton.mpr rfl),
        fun b' hb' hne => absurd (List.mem_singleton.mp hb') hne⟩

/-! ## `add_node` -/

section AddNode

variable {m : Mem} {cfg : Ref} {z : Hole Label} {n : Node} {cs : List Node} {F B F' : List ℕ}

theorem Owns.disjoint (h : Owns m cfg z n cs F B F') :
    F.Nodup ∧ F'.Nodup ∧ (∀ b ∈ F, b ∉ B) ∧ (∀ b ∈ F, b ∉ F') ∧ ∀ b ∈ B, b ∉ F' := by
  obtain ⟨hFB, hF', hdisj⟩ := List.nodup_append.mp h.nodup
  obtain ⟨hF, _, hdisj'⟩ := List.nodup_append.mp hFB
  refine ⟨hF, hF', fun b hb hb' => hdisj' b hb b hb' rfl, fun b hb hb' => ?_, fun b hb hb' => ?_⟩
  · exact hdisj b (List.mem_append_left _ hb) b hb' rfl
  · exact hdisj b (List.mem_append_right _ hb) b hb' rfl

/-- **Room** for one more entry of the current node. -/
theorem Owns.grow (moves : Bool) (h : Owns m cfg z n cs F B F') :
    ∃ m' n' B', Conf.grow moves m cfg = some m' ∧ Owns m' cfg z n' cs F B' F' ∧ n'.count < n'.size := by
  obtain ⟨hF, hF', hFB, hFF', hBF'⟩ := h.disjoint
  rw [Conf.grow, h.spine.get, Option.bind_some]
  by_cases hfull : n.size = n.count
  · obtain ⟨m₁, b', hrealloc, hroot, hblock, hother, hwhere, hfreed⟩ := realloc_spec moves h.cells hfull
    -- the new array is none of the others
    have hnew : ∀ b, (m.block b).isSome = true → b ∉ B → b ≠ b' := by
      rintro b hb hbB rfl
      rcases hwhere with hB | hnone
      · exact hbB hB
      · rw [hnone] at hb
        cases hb
    have hkeepF : ∀ b ∈ F, m₁.block b = m.block b := fun b hb =>
      hother b (hFB b hb) (hnew b (h.spine.isSome b hb) (hFB b hb))
    have hkeepF' : ∀ b ∈ F', m₁.block b = m.block b := fun b hb =>
      hother b (fun hb' => hBF' b hb' hb) (hnew b (h.rep.isSome b hb) fun hb' => hBF' b hb' hb)
    obtain ⟨m₂, hset, hspine, hrest, hlive⟩ := (h.spine.frame hroot hkeepF).write
      { n with items := some b', size := n.size * 2 + 5 } hF rfl rfl
    have hb'F : b' ∉ F := fun hb => hnew b' (h.spine.isSome b' hb) (hFB b' hb) rfl
    have hb'F' : b' ∉ F' := fun hb => hnew b' (h.rep.isSome b' hb) (fun hb' => hBF' b' hb' hb) rfl
    rw [if_pos hfull]
    simp only [hrealloc, Option.bind_some]
    refine ⟨m₂, _, [b'], hset, ⟨hspine, ?_, ?_, ?_, ?_⟩, ?_⟩
    · refine .array rfl ((hrest b' hb'F).trans hblock) h.cells.count ?_
      have := h.cells.count
      change n.size * 2 + 5 = _
      omega
    · refine h.rep.frame fun b hb => ?_
      rw [hrest b fun hbF => hFF' b hbF hb, hkeepF' b hb]
    · rw [List.nodup_append, List.nodup_append]
      refine ⟨⟨hF, List.nodup_singleton b', ?_⟩, hF', ?_⟩
      · rintro b hb c hc rfl
        exact hb'F (List.mem_singleton.mp hc ▸ hb)
      · rintro b hb c hc rfl
        rcases List.mem_append.mp hb with hb | hb
        · exact hFF' b hb hc
        · exact hb'F' (List.mem_singleton.mp hb ▸ hc)
    · intro b hb
      rw [hlive] at hb
      by_cases hbb : b = b'
      · rw [hbb]
        exact List.mem_append_left _ (List.mem_append_right _ (List.mem_singleton.mpr rfl))
      by_cases hbB : b ∈ B
      · rw [hfreed b hbB hbb] at hb
        cases hb
      · rw [hother b hbB hbb] at hb
        rcases List.mem_append.mp (h.live b hb) with hm | hm
        · rcases List.mem_append.mp hm with hm | hm
          · exact List.mem_append_left _ (List.mem_append_left _ hm)
          · exact absurd hm hbB
        · exact List.mem_append_right _ hm
    · have := h.cells.count
      change n.count < n.size * 2 + 5
      omega
  · rw [if_neg hfull]
    refine ⟨m, n, B, rfl, h, ?_⟩
    cases h.cells with
    | null _ hs hc => exact absurd (hs.trans hc.symm) hfull
    | array _ _ hc hs => omega

/-- **The new entry**; it is the current node from then on. -/
theorem Owns.push (h : Owns m cfg z n cs F B F') (hroom : n.count < n.size) (key val : Str) :
    ∃ m' ref, Conf.push m cfg key val = some (m', ref) ∧ Holds m' ref (z.start (key, val)) := by
  obtain ⟨hF, hF', hFB, hFF', hBF'⟩ := h.disjoint
  have hcells := h.cells
  cases hcells with
  | null _ hs hc => omega
  | @array _ b u hi hblock hc hs =>
    obtain ⟨v, rfl⟩ : ∃ v, u = v + 1 := ⟨u - 1, by omega⟩
    have hbF : b ∉ F := fun hb => hFB b hb (List.mem_singleton.mpr rfl)
    obtain ⟨m₁, hset, hspine, hrest, hlive⟩ := h.spine.write { n with count := n.count + 1 } hF rfl rfl
    have hblock₁ : m₁.block b = some (cs.map some ++ List.replicate (v + 1) none) := (hrest b hbF).trans hblock
    have hlt : b < m₁.blocks.length := lt_of_isSome (by rw [hblock₁]; rfl)
    generalize hnew : Node.mk 0 0 key val (some cfg) none = new
    have hwritten : (cs.map some ++ List.replicate (v + 1) none).set cs.length (some new) =
        (cs ++ [new]).map some ++ List.replicate v none := by
      rw [List.set_append_right _ _ (by rw [List.length_map]), List.length_map, Nat.sub_self, List.replicate_succ,
        List.map_append, List.append_assoc]
      rfl
    have hset₂ : m₁.set (.item b cs.length) new =
        some (m₁.setBlock b (some ((cs ++ [new]).map some ++ List.replicate v none))) := by
      rw [Mem.set, hblock₁, Option.bind_some, hwritten, if_pos]
      rw [List.length_append, List.length_map, List.length_replicate]
      omega
    have hself : (m₁.setBlock b (some ((cs ++ [new]).map some ++ List.replicate v none))).block b =
        some ((cs ++ [new]).map some ++ List.replicate v none) := block_setBlock_self hlt
    have hother : ∀ b' ≠ b, (m₁.setBlock b (some ((cs ++ [new]).map some ++ List.replicate v none))).block b' =
        m₁.block b' := fun b' hb' => block_setBlock_ne hb'
    generalize m₁.setBlock b (some ((cs ++ [new]).map some ++ List.replicate v none)) = m₂ at hset₂ hself hother
    have hroot : m₂.root = m₁.root := by
      rw [Mem.set, hblock₁, Option.bind_some] at hset₂
      split_ifs at hset₂
      rw [← Option.some.inj hset₂]
      rfl
    refine ⟨m₂, .item b cs.length, ?_, new, [], F ++ b :: F', [], [], ?_⟩
    · rw [hi] at hset
      rw [Conf.push, h.spine.get, Option.bind_some, hi, Option.bind_some, hset, Option.bind_some, hc, hnew, hset₂]
      rfl
    · have hlabel : (new.key, new.val) = (key, val) := by rw [← hnew]
      refine ⟨?_, ?_, .nil, ?_, ?_⟩
      · rw [Hole.start, ← hlabel]
        refine .item (hspine.frame hroot fun b' hb' => hother b' ?_) (.array hi hself ?_ ?_) (h.rep.frame fun b' hb' => ?_)
          (by rw [← hnew])
        · rintro rfl
          exact hbF hb'
        · rw [List.length_append, List.length_singleton]
          exact congrArg (· + 1) hc
        · rw [List.length_append, List.length_singleton]
          exact hs.trans (by omega)
        · have hne : b' ≠ b := by
            rintro rfl
            exact hBF' b' (List.mem_singleton.mpr rfl) hb'
          rw [hother b' hne, hrest b' fun hb => hFF' b' hb hb']
      · rw [← hnew]
        exact .null rfl rfl rfl
      · have hnodup := h.nodup
        simp only [List.append_assoc, List.singleton_append, List.append_nil] at hnodup ⊢
        exact hnodup
      · intro b' hb'
        have hm : b' ∈ F ++ [b] ++ F' := by
          by_cases hne : b' = b
          · rw [hne]
            exact List.mem_append_left _ (List.mem_append_right _ (List.mem_singleton.mpr rfl))
          · apply h.live
            rwa [hother b' hne, hlive] at hb'
        simp only [List.append_assoc, List.singleton_append, List.append_nil] at hm ⊢
        exact hm

/-- **`add_node`** refuses a key that is not new, and adds the others. -/
theorem Holds.addNode (moves : Bool) (h : Holds m cfg z) (key val : Str) (lineno : ℕ) :
    (fresh z.here.labels (key, val) = false ∧
      Conf.addNode moves m cfg key val lineno = some (m, .error (.duplicated lineno key))) ∨
    (fresh z.here.labels (key, val) = true ∧ ∃ m' ref, Conf.addNode moves m cfg key val lineno = some (m', .ok ref) ∧
      Holds m' ref (z.start (key, val))) := by
  obtain ⟨n, cs, F, B, F', hown⟩ := h
  -- what is done when the key may be added
  have hadd : ∃ m' ref, ((Conf.grow moves m cfg).bind fun m => (Conf.push m cfg key val).map fun r =>
      (r.1, (.ok r.2 : Except Err Ref))) = some (m', .ok ref) ∧ Holds m' ref (z.start (key, val)) := by
    obtain ⟨m₁, n₁, B₁, hgrow, hown₁, hroom⟩ := hown.grow moves
    obtain ⟨m₂, ref, hpush, hholds⟩ := hown₁.push hroom key val
    exact ⟨m₂, ref, by rw [hgrow, Option.bind_some, hpush]; rfl, hholds⟩
  rw [Conf.addNode]
  by_cases hcomment : key.head? = some (chr '#')
  · right
    rw [if_neg (not_not.mpr hcomment), Option.bind_some]
    exact ⟨decide_eq_true (.inl hcomment), hadd⟩
  · rw [if_pos hcomment]
    have hfind := findChild_spec key hown.spine.get hown.cells hown.rep
    cases hf : find key z.here with
    | none =>
      right
      simp only [hf] at hfind
      rw [hfind, Option.bind_some]
      exact ⟨decide_eq_true (.inr (find_eq_none.mp hf)), hadd⟩
    | some t =>
      left
      simp only [hf] at hfind
      obtain ⟨ref, hfind, _⟩ := hfind
      rw [hfind, Option.bind_some]
      refine ⟨decide_eq_false ?_, rfl⟩
      rintro (h | h)
      · exact hcomment h
      · rw [find_eq_none.mpr h] at hf
        cases hf

end AddNode

/-! ## The loop -/

section Loop

variable (moves : ℕ → Bool) {s : State} {t : Hole Label × ℕ}

/-- The variables of `cfg_load_file` and those of `parseLoop`. -/
def Rel (s : State) (t : Hole Label × ℕ) : Prop := Holds s.mem s.cfg t.1 ∧ s.lastIndent = t.2

theorem Rel.line (h : Rel s t) (lineno : ℕ) (buf : Str) :
    (∃ e, parseLine lineno buf t = .error e ∧ Conf.line moves lineno buf s = some (s.mem, .error e)) ∨
    ∃ t' s', parseLine lineno buf t = .ok t' ∧ Conf.line moves lineno buf s = some (s'.mem, .ok s') ∧ Rel s' t' := by
  obtain ⟨m, ref, last⟩ := s
  obtain ⟨hholds, hlast⟩ := h
  obtain rfl : last = t.2 := hlast
  rw [Conf.line, parseLine]
  simp only
  by_cases hlen : (rtrim buf).length > maxLine
  · exact .inl ⟨_, by rw [if_pos hlen], by rw [if_pos hlen]⟩
  rw [if_neg hlen, if_neg hlen]
  by_cases hempty : isEmptyStr (rtrim buf) = true
  · exact .inr ⟨t, ⟨m, ref, t.2⟩, by rw [if_pos hempty], by rw [if_pos hempty], hholds, rfl⟩
  rw [if_neg hempty, if_neg hempty]
  generalize (rtrim buf).dropWhile (· = chr '\t') = key
  generalize ((rtrim buf).takeWhile (· = chr '\t')).length = indent
  by_cases hindent : t.2 + 1 < indent
  · left
    exact ⟨_, by rw [if_pos hindent], by rw [if_neg (by omega), if_pos hindent]⟩
  rw [if_neg hindent]
  -- the node where the line goes, whether or not the code goes up for it
  obtain ⟨cfg, hclimb, hcfg⟩ : ∃ cfg, Conf.climb m (t.2 + 1 - indent) ref = some cfg ∧
      Holds m cfg (Hole.close^[t.2 + 1 - indent] t.1) := hholds.climb (t.2 + 1 - indent)
  have hcode : (if indent ≤ t.2 then (Conf.climb m (t.2 + 1 - indent) ref).bind fun cfg =>
      lineTail moves lineno indent key ⟨m, cfg, t.2⟩
      else if indent > t.2 + 1 then some (m, .error (.indent lineno)) else lineTail moves lineno indent key ⟨m, ref, t.2⟩) =
      lineTail moves lineno indent key ⟨m, cfg, t.2⟩ := by
    by_cases hle : indent ≤ t.2
    · rw [if_pos hle, hclimb, Option.bind_some]
    · have hzero : t.2 + 1 - indent = 0 := by omega
      rw [hzero, Conf.climb, Option.some.injEq] at hclimb
      rw [if_neg hle, if_neg (by omega), ← hclimb]
  rw [hcode, lineTail]
  cases hentry : entry lineno key with
  | error e => exact .inl ⟨e, rfl, rfl⟩
  | ok kv =>
    rcases hcfg.addNode (moves lineno) kv.1 kv.2 lineno with ⟨hf, hadd⟩ | ⟨hf, m', ref, hadd, hholds'⟩
    · left
      refine ⟨.duplicated lineno kv.1, ?_, ?_⟩
      · simp only [hf, Bool.false_eq_true, if_false]
      · simp only [hadd]
        rfl
    · right
      refine ⟨(t.1.enter t.2 indent kv, indent), ⟨m', ref, indent⟩, ?_, ?_, hholds', rfl⟩
      · simp only [hf, if_true]
      · simp only [hadd]
        rfl

theorem Rel.loop {l : List Str} (h : Rel s t) (lineno : ℕ) :
    (∃ e m ref z, parseLoop lineno l t = .error e ∧ Conf.loop moves lineno l s = some (m, .error e) ∧ Holds m ref z) ∨
    ∃ t' s', parseLoop lineno l t = .ok t' ∧ Conf.loop moves lineno l s = some (s'.mem, .ok s') ∧ Rel s' t' := by
  induction l generalizing lineno s t with
  | nil => exact .inr ⟨t, s, rfl, rfl, h⟩
  | cons buf l ih =>
    rw [parseLoop, Conf.loop]
    rcases h.line moves (lineno + 1) buf with ⟨e, hparse, hline⟩ | ⟨t', s', hparse, hline, h'⟩
    · left
      rw [hparse, hline]
      exact ⟨e, s.mem, s.cfg, t.1, rfl, rfl, h.1⟩
    · rw [hparse, hline]
      exact ih h' (lineno + 1)

end Loop

/-! ## Freeing -/

/-- The arrays `F` were freed, and nothing else happened. -/
structure Freed (m m' : Mem) (F : List ℕ) : Prop where
  root : m'.root = m.root
  length : m'.blocks.length = m.blocks.length
  gone : ∀ b ∈ F, m'.block b = none
  kept : ∀ b, b ∉ F → m'.block b = m.block b

theorem Freed.trans {m m₁ m₂ : Mem} {F F' : List ℕ} (h : Freed m m₁ F) (h' : Freed m₁ m₂ F') : Freed m m₂ (F ++ F') where
  root := h'.root.trans h.root
  length := h'.length.trans h.length
  gone b hb := by
    by_cases hb' : b ∈ F'
    · exact h'.gone b hb'
    · rw [h'.kept b hb', h.gone b ((List.mem_append.mp hb).resolve_right hb')]
  kept b hb := by
    rw [List.mem_append, not_or] at hb
    rw [h'.kept b hb.2, h.kept b hb.1]

theorem free_spec {m : Mem} {b : ℕ} (h : (m.block b).isSome = true) : ∃ m', m.free b = some m' ∧ Freed m m' [b] := by
  obtain ⟨cells, hcells⟩ := Option.isSome_iff_exists.mp h
  refine ⟨m.setBlock b none, by rw [Mem.free, hcells]; rfl, rfl, List.length_set, ?_, ?_⟩
  · intro b' hb'
    rw [List.mem_singleton.mp hb']
    exact block_setBlock_self (lt_of_isSome h)
  · intro b' hb'
    exact block_setBlock_ne fun heq => hb' (List.mem_singleton.mpr heq)

theorem freeNode_spec {m m' : Mem} {fuel : ℕ} {ref : Ref} {n : Node} {cs : List Node} {B F : List ℕ}
    (hget : m'.get ref = some n) (hc : Cells m n cs B) (hagree : ∀ b ∈ B, m'.block b = m.block b) (hBF : ∀ b ∈ B, b ∉ F) (hnull : cs = [] → F = [])
    (hkids : ∀ b ∈ B, ∀ l, m'.block b = some (cs.map some ++ l) → ∃ m'',
      (List.range' 0 cs.length).foldlM (fun m i => freeNode fuel m (.item b i)) m' = some m'' ∧ Freed m' m'' F) :
    ∃ m'', freeNode (fuel + 1) m' ref = some m'' ∧ Freed m' m'' (B ++ F) := by
  rw [freeNode, hget, Option.bind_some]
  cases hc with
  | null hi _ _ =>
    rw [hi, hnull rfl]
    exact ⟨m', rfl, rfl, rfl, fun b hb => absurd hb List.not_mem_nil, fun _ _ => rfl⟩
  | @array _ b u hi hblock hcount _ =>
    have hb : b ∈ [b] := List.mem_singleton.mpr rfl
    have hblock' : m'.block b = some (cs.map some ++ List.replicate u none) := (hagree b hb).trans hblock
    obtain ⟨m₁, hfold, hfreed⟩ := hkids b hb _ hblock'
    obtain ⟨m₂, hfree, hfreed'⟩ := free_spec (m := m₁) (b := b) (by rw [hfreed.kept b (hBF b hb), hblock']; rfl)
    simp only [hi, hcount, List.range_eq_range', hfold, Option.bind_some, hfree]
    refine ⟨m₂, rfl, ?_⟩
    have hall := hfreed.trans hfreed'
    exact ⟨hall.root, hall.length, fun c hc => hall.gone c (by
      rw [List.mem_append] at hc ⊢
      exact hc.symm), fun c hc => hall.kept c (by
      rw [List.mem_append, or_comm, ← List.mem_append]
      exact hc)⟩

theorem foldlM_freeNode {m : Mem} {cells : List Node} {f : Trees Label} {F : List ℕ} (h : Rep m cells f F)
    {m' : Mem} {fuel : ℕ} (hfuel : F.length < fuel) (hagree : ∀ b ∈ F, m'.block b = m.block b) (hF : F.Nodup) {b : ℕ} (hb : b ∉ F)
    {p : List Node} {l : List (Option Node)} (hblock : m'.block b = some ((p ++ cells).map some ++ l)) :
    ∃ m'', (List.range' p.length cells.length).foldlM (fun m i => freeNode fuel m (.item b i)) m' = some m'' ∧
      Freed m' m'' F := by
  induction h generalizing m' fuel b p l with
  | nil => exact ⟨m', rfl, rfl, rfl, fun b hb => absurd hb List.not_mem_nil, fun _ _ => rfl⟩
  | @cons n cs cells kids rest B F₁ F₂ hc hk hr ihk ihr =>
    obtain ⟨fuel, rfl⟩ : ∃ k, fuel = k + 1 := ⟨fuel - 1, by omega⟩
    obtain ⟨hBF, hF₂, hdisj⟩ := List.nodup_append.mp hF
    obtain ⟨hBnodup, hF₁, hdisj'⟩ := List.nodup_append.mp hBF
    have hget : m'.get (.item b p.length) = some n := by
      rw [Mem.get, hblock, Option.bind_some]
      exact getElem?_cells p n cells l
    rw [List.length_append, List.length_append] at hfuel
    have hfirst : ∃ m₁, freeNode (fuel + 1) m' (.item b p.length) = some m₁ ∧ Freed m' m₁ (B ++ F₁) := by
      refine freeNode_spec hget hc (fun c hcB => hagree c (List.mem_append_left _ (List.mem_append_left _ hcB)))
        (fun c hcB hcF => hdisj' c hcB c hcF rfl) ?_ ?_
      · rintro rfl
        cases hk with
        | nil => rfl
      · intro c hcB l' hcl
        have hpos : 0 < B.length := List.length_pos_of_mem hcB
        exact ihk (by omega) (fun d hd => hagree d (List.mem_append_left _ (List.mem_append_right _ hd))) hF₁
          (fun hd => hdisj' c hcB c hd rfl) (p := []) hcl
    obtain ⟨m₁, hfree, hfreed⟩ := hfirst
    have hnot : ∀ c ∈ F₂, c ∉ B ++ F₁ := fun c hc hc' => hdisj c hc' c hc rfl
    obtain ⟨m₂, hfold, hfreed'⟩ := ihr (show F₂.length < fuel + 1 by omega)
      (fun c hc => show m₁.block c = m.block c by
        rw [hfreed.kept c (hnot c hc), hagree c (List.mem_append_right _ hc)]) hF₂
      (fun h => hb (List.mem_append_right _ h)) (p := p ++ [n]) (l := l) (by
        rw [hfreed.kept b fun h => hb (List.mem_append_left _ h), hblock, List.append_assoc]
        rfl)
    refine ⟨m₂, ?_, hfreed.trans hfreed'⟩
    rw [List.length_append, List.length_singleton] at hfold
    rw [List.length_cons, List.range'_succ, List.foldlM_cons, hfree]
    exact hfold

/-- The memory has just these trees. -/
def Loaded (m : Mem) (f : Trees Label) : Prop := Holds m .root ⟨f, []⟩

theorem Loaded.owns {m : Mem} {f : Trees Label} (h : Loaded m f) : ∃ n cs B F, m.root = some n ∧ Cells m n cs B ∧
    Rep m cs f F ∧ (B ++ F).Nodup ∧ (∀ b, (m.block b).isSome = true ↔ b ∈ B ++ F) ∧ (B ++ F).length ≤ m.blocks.length := by
  obtain ⟨n, cs, F, B, F', hown⟩ := h
  have hcells := hown.cells
  have hrep := hown.rep
  have hnodup := hown.nodup
  have hlive := hown.live
  cases hown.spine with
  | root hroot =>
    rw [List.nil_append] at hnodup hlive
    have hiff : ∀ b, (m.block b).isSome = true ↔ b ∈ B ++ F' := fun b =>
      ⟨hlive b, fun hb => (List.mem_append.mp hb).elim (hcells.isSome b) (hrep.isSome b)⟩
    have hsub : B ++ F' ⊆ List.range m.blocks.length := fun b hb =>
      List.mem_range.mpr (lt_of_isSome ((hiff b).mpr hb))
    have hlen := (List.subperm_of_subset hnodup hsub).length_le
    rw [List.length_range] at hlen
    exact ⟨n, cs, B, F', hroot, hcells, hrep, hnodup, hiff, hlen⟩

/-- Nothing is left. -/
def Clear (m : Mem) : Prop := m.root = none ∧ ∀ b, m.block b = none

/-- **`cfg_free`** frees everything, and nothing twice. -/
theorem Loaded.free {m : Mem} {f : Trees Label} (h : Loaded m f) : ∃ m', cfgFree m = some m' ∧ Clear m' := by
  obtain ⟨n, cs, B, F, hroot, hc, hr, hnodup, hlive, hlen⟩ := h.owns
  obtain ⟨_, hF, hdisj⟩ := List.nodup_append.mp hnodup
  rw [List.length_append] at hlen
  have hnode : ∃ m', freeNode (m.blocks.length + 1) m .root = some m' ∧ Freed m m' (B ++ F) := by
    refine freeNode_spec hroot hc (fun _ _ => rfl) (fun b hb hb' => hdisj b hb b hb' rfl) ?_ ?_
    · rintro rfl
      cases hr with
      | nil => rfl
    · intro b hb l hl
      have hpos : 0 < B.length := List.length_pos_of_mem hb
      exact foldlM_freeNode hr (by omega) (fun _ _ => rfl) hF (fun hb' => hdisj b hb b hb' rfl) (p := []) hl
  obtain ⟨m', hfree, hfreed⟩ := hnode
  refine ⟨{ m' with root := none }, by rw [cfgFree, hfree]; rfl, rfl, fun b => ?_⟩
  change m'.block b = none
  by_cases hb : b ∈ B ++ F
  · exact hfreed.gone b hb
  · rw [hfreed.kept b hb]
    exact Option.not_isSome_iff_eq_none.mp fun hs => hb ((hlive b).mp hs)

/-! ## The file -/

/-- **Loading a file**, whatever it is and wherever `realloc` puts the arrays: only what is there is read and written; a file
that is accepted leaves just its trees in memory, and one that is refused leaves nothing. -/
theorem cfgLoadFile_spec (moves : ℕ → Bool) (file : Str) :
    match parse file with
    | .ok f => ∃ m, cfgLoadFile moves file = some (m, none) ∧ Loaded m f
    | .error e => ∃ m, cfgLoadFile moves file = some (m, some e) ∧ Clear m := by
  have hstart : Rel { mem := { root := some rootNode, blocks := [] }, cfg := .root, lastIndent := 0 } (⟨.nil, []⟩, 0) := by
    refine ⟨⟨rootNode, [], [], [], [], .root rfl, .null rfl rfl rfl, .nil, List.nodup_nil, fun b hb => ?_⟩, rfl⟩
    cases hb
  rw [parse, cfgLoadFile]
  rcases hstart.loop moves 0 with ⟨e, m, ref, z, hparse, hloop, hholds⟩ | ⟨t, s, hparse, hloop, hrel⟩
  · rw [hparse, hloop]
    obtain ⟨m', hfree, hclear⟩ := Loaded.free hholds.trees
    exact ⟨m', by simp only [Option.bind_some, hfree, Option.map_some], hclear⟩
  · rw [hparse, hloop]
    exact ⟨s.mem, rfl, hrel.1.trees⟩

end Backend.Conf
