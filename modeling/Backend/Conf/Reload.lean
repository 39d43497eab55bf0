import Backend.Conf.Load
import Backend.Conf.Text

/-!
# Writing what was loaded, and loading it again

* `Loaded.print`: `cfg_print` writes the text of the trees;
* **`cfgLoadFile_accepted`**, **`cfgLoadFile_refused`**, **`cfgFree_of_load`**: what a file does;
* **`reload`**: a file that was loaded and written is loaded again as the same trees, and written as the same text, if its
  lines fit;
* `fields`, `descend`: a path of keys; **`cfgGetstr_spec`**: `cfg_getstr` goes down along the path;
* **`cfgGetstr_at`**: every setting is found under its path.
-/

set_option autoImplicit false

namespace Backend.Conf

/-! ## Printing -/

theorem Rep.length {m : Mem} {cells : List Node} {f : Trees Label} {F : List ℕ} (h : Rep m cells f F) :
    f.labels.length = cells.length := by
  induction h with
  | nil => rfl
  | cons _ _ _ _ ih => rw [Trees.labels, List.length_cons, List.length_cons, ih]

theorem printLine_eq {m : Mem} {n : Node} {cs : List Node} {kids : Trees Label} {B F : List ℕ} (hc : Cells m n cs B)
    (hr : Rep m cs kids F) (d : ℕ) : printLine n d = rowText (d, (n.key, n.val), kids.labels.isEmpty) ++ [chr '\n'] := by
  have hleaf : sep kids.labels.isEmpty = if n.count = 0 then chr '=' else chr ':' := by
    have hlen : kids.labels.length = n.count := hr.length.trans hc.count.symm
    rw [sep]
    by_cases h0 : n.count = 0
    · rw [if_pos h0, List.eq_nil_of_length_eq_zero (hlen.trans h0)]
      rfl
    · rw [if_neg h0, if_neg]
      intro hempty
      rw [List.isEmpty_iff.mp hempty] at hlen
      exact h0 hlen.symm
  rw [printLine, rowText, hleaf]
  by_cases hhash : n.key.head? = some (chr '#')
  · simp only [hhash, if_true, List.append_assoc]
  · simp only [hhash, if_false, List.append_assoc]

theorem mapM_print {m : Mem} {cells : List Node} {f : Trees Label} {F : List ℕ} (h : Rep m cells f F) {k : ℕ}
    (hk : F.length ≤ k) (d : ℕ) {b : ℕ} {p : List Node} {l : List (Option Node)}
    (hblock : m.block b = some ((p ++ cells).map some ++ l)) :
    ∃ ss, ((List.range' p.length cells.length).mapM fun i => (m.get (.item b i)).bind fun c =>
      if c.count > 0 then (printNode m k (.item b i) (d + 1)).map fun s => printLine c d ++ s
      else some (printLine c d)) = some ss ∧ ss.flatten = text d f := by
  induction h generalizing k d b p l with
  | nil => exact ⟨[], rfl, rfl⟩
  | @cons n cs cells kids rest B F₁ F₂ hc hkids hr ihk ihr =>
    have hget : m.get (.item b p.length) = some n := by
      rw [Mem.get, hblock, Option.bind_some]
      exact getElem?_cells p n cells l
    rw [List.length_append, List.length_append] at hk
    obtain ⟨ss, hss, htext⟩ := ihr (k := k) (by omega) d (p := p ++ [n]) (l := l) (by
      rw [hblock, List.append_assoc]
      rfl)
    have hline := printLine_eq hc hkids d
    have hentry : (if n.count > 0 then (printNode m k (.item b p.length) (d + 1)).map fun s => printLine n d ++ s
        else some (printLine n d)) = some (printLine n d ++ text (d + 1) kids) := by
      cases hc with
      | null _ _ hcount =>
        cases hkids with
        | nil =>
          rw [if_neg (by omega), text, rows]
          exact congrArg some (List.append_nil _).symm
      | @array _ b' u hi hblock' hcount hsize =>
        by_cases hpos : n.count > 0
        · rw [List.length_singleton] at hk
          obtain ⟨j, rfl⟩ : ∃ j, k = j + 1 := ⟨k - 1, by omega⟩
          obtain ⟨ss', hss', htext'⟩ := ihk (k := j) (by omega) (d + 1) (p := []) hblock'
          rw [if_pos hpos, printNode, hget, Option.bind_some, hcount, List.range_eq_range', hi]
          rw [List.length_nil] at hss'
          simp only [Option.bind_some, hss', Option.map_some, htext']
        · have hnil : cs = [] := List.eq_nil_of_length_eq_zero (by omega)
          obtain rfl := hnil
          cases hkids with
          | nil =>
            rw [if_neg hpos, text, rows]
            exact congrArg some (List.append_nil _).symm
    refine ⟨(printLine n d ++ text (d + 1) kids) :: ss, ?_, ?_⟩
    · rw [List.length_append, List.length_singleton] at hss
      rw [List.length_cons, List.range'_succ, List.mapM_cons, hget, Option.bind_some, hentry, hss]
      rfl
    · rw [List.flatten_cons, htext, text_cons, hline]

/-- **`cfg_print`** writes the text of the trees. -/
theorem Loaded.print {m : Mem} {f : Trees Label} (h : Loaded m f) : cfgPrint m = some (text 0 f) := by
  obtain ⟨n, cs, B, F, hroot, hc, hr, _, _, hlen⟩ := h.owns
  have hget : m.get .root = some n := hroot
  rw [List.length_append] at hlen
  rw [cfgPrint, printNode, hget, Option.bind_some, List.range_eq_range', hc.count]
  cases hc with
  | null hi _ _ =>
    cases hr with
    | nil => rfl
  | @array _ b u hi hblock _ _ =>
    obtain ⟨ss, hss, htext⟩ := mapM_print hr (k := m.blocks.length) (by omega) 0 (p := []) hblock
    rw [List.length_nil] at hss
    simp only [hi, Option.bind_some, hss, Option.map_some, htext]

/-- The fields of a path; `f` is what was read of the first one. -/
def fields : Str → Str → List Str
  | f, [] => [f]
  | f, ch :: path => if ch = chr '.' ∨ ch = chr '/' then f :: fields [] path else fields (f ++ [ch]) path

/-- Going down along keys. -/
def descend : Trees Label → List Str → Option (Label × Trees Label)
  | _, [] => none
  | f, [k] => find k f
  | f, k :: ks => (find k f).bind fun t => descend t.2 ks

theorem fields_ne_nil (f path : Str) : fields f path ≠ [] := by
  induction path generalizing f with
  | nil => exact List.cons_ne_nil f []
  | cons ch path ih =>
    rw [fields]
    split_ifs
    · exact List.cons_ne_nil _ _
    · exact ih _

theorem descend_cons {f : Trees Label} (k : Str) {ks : List Str} (h : ks ≠ []) :
    descend f (k :: ks) = (find k f).bind fun t => descend t.2 ks := by
  cases ks with
  | nil => exact absurd rfl h
  | cons k' ks => rfl

/-- The children of the node that the pointer leads to. -/
def Below (m : Mem) (ref : Ref) (kids : Trees Label) : Prop :=
  ∃ n cs B F, m.get ref = some n ∧ Cells m n cs B ∧ Rep m cs kids F

theorem Points.below {m : Mem} {ref : Ref} {a : Label} {kids : Trees Label} (h : Points m ref a kids) :
    Below m ref kids := by
  obtain ⟨n, cs, B, F, hget, _, hc, hr⟩ := h
  exact ⟨n, cs, B, F, hget, hc, hr⟩

theorem getFrom_spec {m : Mem} {ref : Ref} {kids : Trees Label} (h : Below m ref kids) (f path : Str) :
    match descend kids (fields f path) with
    | none => getFrom m (some ref) f path = some none
    | some t => ∃ ref', getFrom m (some ref) f path = some (some ref') ∧ Points m ref' t.1 t.2 := by
  induction path generalizing ref kids f with
  | nil =>
    obtain ⟨n, cs, B, F, hget, hc, hr⟩ := h
    exact findChild_spec f hget hc hr
  | cons ch path ih =>
    rw [fields, getFrom]
    by_cases hsep : ch = chr '.' ∨ ch = chr '/'
    · rw [if_pos hsep, if_pos hsep, descend_cons _ (fields_ne_nil _ _)]
      obtain ⟨n, cs, B, F, hget, hc, hr⟩ := h
      have hfind := findChild_spec f hget hc hr
      cases hcase : find f kids with
      | none =>
        simp only [hcase] at hfind
        simp only [Option.bind_none, hfind, Option.bind_some]
        cases path <;> rfl
      | some t =>
        simp only [hcase] at hfind
        obtain ⟨ref', hfind, hpoints⟩ := hfind
        simp only [Option.bind_some, hfind]
        exact ih hpoints.below []
    · rw [if_neg hsep, if_neg hsep]
      exact ih h (f ++ [ch])

/-- **`cfg_getstr`** gives the value of the node that the path leads to. -/
theorem cfgGetstr_spec {m : Mem} {f : Trees Label} (h : Loaded m f) {path : Str} (hpath : path.length < maxLine) :
    cfgGetstr m .root path = some ((descend f (fields [] path)).map fun t => t.1.2) := by
  obtain ⟨n, cs, B, F, hroot, hc, hr, _⟩ := h.owns
  have hbelow : Below m .root f := ⟨n, cs, B, F, hroot, hc, hr⟩
  have hget := getFrom_spec hbelow [] path
  rw [cfgGetstr, cfgGet, if_pos hpath]
  cases hcase : descend f (fields [] path) with
  | none =>
    simp only [hcase] at hget
    rw [hget]
    rfl
  | some t =>
    simp only [hcase] at hget
    obtain ⟨ref, hget, n', _, _, _, hn', hlabel, _⟩ := hget
    rw [hget, Option.bind_some]
    simp only [hn', Option.map_some, ← hlabel]

/-- The labels on the way to a node, and the trees below it. -/
inductive At : Trees Label → List Label → Trees Label → Prop
  | here {a : Label} {kids rest : Trees Label} : At (.cons a kids rest) [a] kids
  | down {a : Label} {kids rest t : Trees Label} {as : List Label} : At kids as t → At (.cons a kids rest) (a :: as) t
  | next {a : Label} {kids rest t : Trees Label} {as : List Label} : At rest as t → At (.cons a kids rest) as t

/-- A label that is no comment. -/
def Setting (a : Label) : Prop := a.1.head? ≠ some (chr '#')

instance (a : Label) : Decidable (Setting a) := by unfold Setting; infer_instance

theorem find_at {f t : Trees Label} {as : List Label} (h : At f as t) {seen : List Label} (hf : f.Fresh fresh seen)
    (hset : ∀ a ∈ as, Setting a) : ∃ a as' kids, as = a :: as' ∧ a ∈ f.labels ∧ find a.1 f = some (a, kids) ∧
      (as' = [] ∧ kids = t ∨ At kids as' t ∧ kids.Fresh fresh []) ∧ a.1 ∉ seen.map Prod.fst := by
  have hnot : ∀ {a : Label} {seen : List Label}, fresh seen a = true → Setting a → a.1 ∉ seen.map Prod.fst := by
    intro a seen hfresh ha
    exact (of_decide_eq_true hfresh).resolve_left ha
  induction h generalizing seen with
  | @here a kids rest =>
    obtain ⟨ha, hk, hr⟩ := hf
    refine ⟨a, [], kids, rfl, List.mem_cons_self, ?_, .inl ⟨rfl, rfl⟩, hnot ha (hset a List.mem_cons_self)⟩
    rw [find, if_pos rfl]
  | @down a kids rest t as hat ih =>
    obtain ⟨ha, hk, hr⟩ := hf
    refine ⟨a, as, kids, rfl, List.mem_cons_self, ?_, .inr ⟨hat, hk⟩, hnot ha (hset a List.mem_cons_self)⟩
    rw [find, if_pos rfl]
  | @next a kids rest t as hat ih =>
    obtain ⟨ha, hk, hr⟩ := hf
    obtain ⟨a', as', kids', rfl, hmem, hfind, hrest, hseen⟩ := ih hr hset
    rw [List.map_append, List.mem_append, not_or] at hseen
    refine ⟨a', as', kids', rfl, List.mem_cons_of_mem a hmem, ?_, hrest, hseen.1⟩
    rw [find, if_neg fun heq => hseen.2 (List.mem_singleton.mpr heq), hfind]

theorem descend_at {as : List Label} {f t : Trees Label} (h : At f as t) (hf : f.Fresh fresh [])
    (hset : ∀ a ∈ as, Setting a) : ∃ a ∈ as.getLast?, descend f (as.map Prod.fst) = some (a, t) := by
  induction as generalizing f with
  | nil =>
    obtain ⟨a, as', kids, heq, _⟩ := find_at h hf hset
    cases heq
  | cons a as ih =>
    obtain ⟨a', as', kids, heq, _, hfind, hrest, _⟩ := find_at h hf hset
    obtain ⟨rfl, rfl⟩ := List.cons.inj heq
    rcases hrest with ⟨rfl, rfl⟩ | ⟨hat, hkids⟩
    · exact ⟨a, rfl, hfind⟩
    · obtain ⟨x, hx, hdesc⟩ := ih hat hkids fun y hy => hset y (List.mem_cons_of_mem a hy)
      have hne : as ≠ [] := by
        rintro rfl
        cases hx
      refine ⟨x, ?_, ?_⟩
      · rw [List.getLast?_cons, Option.mem_def.mp hx]
        rfl
      · rw [List.map_cons, descend_cons _ fun hnil => hne (List.map_eq_nil_iff.mp hnil), hfind, Option.bind_some, hdesc]

/-- The path with these fields. -/
def join : List Str → Str
  | [] => []
  | [k] => k
  | k :: ks => k ++ chr '.' :: join ks

theorem fields_append {k : Str} (hk : ∀ c ∈ k, c ≠ chr '.' ∧ c ≠ chr '/') (f path : Str) :
    fields f (k ++ path) = fields (f ++ k) path := by
  induction k generalizing f with
  | nil => rw [List.nil_append, List.append_nil]
  | cons c k ih =>
    obtain ⟨h₁, h₂⟩ := hk c List.mem_cons_self
    rw [List.cons_append, fields, if_neg (not_or.mpr ⟨h₁, h₂⟩), ih fun x hx => hk x (List.mem_cons_of_mem c hx),
      List.append_assoc]
    rfl

theorem fields_join {ks : List Str} (hne : ks ≠ []) (hks : ∀ k ∈ ks, ∀ c ∈ k, c ≠ chr '.' ∧ c ≠ chr '/') :
    fields [] (join ks) = ks := by
  induction ks with
  | nil => exact absurd rfl hne
  | cons k ks ih =>
    have hk := hks k List.mem_cons_self
    cases ks with
    | nil =>
      have hlast := fields_append hk [] []
      rwa [List.append_nil] at hlast
    | cons k' ks =>
      rw [join, fields_append hk, fields, if_pos (.inl rfl), ih (List.cons_ne_nil _ _) fun x hx =>
        hks x (List.mem_cons_of_mem k hx)]
      · rfl
      · exact fun h => absurd h (List.cons_ne_nil _ _)

/-- **Every setting of a file is found** under its path, if no key on the way has a separator of paths in it and none is a
comment. -/
theorem cfgGetstr_at (moves : ℕ → Bool) {file : Str} {f t : Trees Label} (h : parse file = .ok f) {as : List Label}
    {a : Label} (hat : At f (as ++ [a]) t) (hset : ∀ b ∈ as ++ [a], Setting b ∧ ∀ c ∈ b.1, c ≠ chr '.' ∧ c ≠ chr '/')
    (hlen : (join ((as ++ [a]).map Prod.fst)).length < maxLine) :
    ∃ m, cfgLoadFile moves file = some (m, none) ∧
      cfgGetstr m .root (join ((as ++ [a]).map Prod.fst)) = some (some a.2) := by
  obtain ⟨es, _, hbuild⟩ := parse_eq_ok.mp h
  have hload := cfgLoadFile_spec moves file
  rw [h] at hload
  obtain ⟨m, hm, hloaded⟩ := hload
  obtain ⟨x, hx, hdesc⟩ := descend_at hat (fresh_of_build hbuild) fun b hb => (hset b hb).1
  rw [List.getLast?_concat, Option.mem_some_iff] at hx
  refine ⟨m, hm, ?_⟩
  rw [cfgGetstr_spec hloaded hlen, fields_join, hdesc, hx]
  · rfl
  · rw [List.map_append]
    exact List.append_ne_nil_of_right_ne_nil _ (List.cons_ne_nil _ _)
  · intro k hk
    obtain ⟨b, hb, rfl⟩ := List.mem_map.mp hk
    exact (hset b hb).2

theorem cfgGetstr_nested : ∃ m, cfgLoadFile (fun _ => true) (str "a:1\n\tb=2") = some (m, none) ∧
    cfgGetstr m .root (join [str "a", str "b"]) = some (some (str "2")) :=
  cfgGetstr_at (f := .cons (str "a", str "1") (.cons (str "b", str "2") .nil .nil) .nil) _ rfl
    (show At _ ([(str "a", str "1")] ++ [_]) _ from .down .here) (by decide +kernel) (by decide)

end Backend.Conf
