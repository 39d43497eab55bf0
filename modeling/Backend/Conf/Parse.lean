import Backend.Conf.Model
import Backend.Lib.Outline

/-!
# What a configuration file means

The file without the memory: its lines are the outline of trees, whose labels are the keys with their values.

* `fresh`: a key is new among its siblings, or starts a comment;
* `parseLine`, `parseLoop`, `parse`: the trees of a file, or what is wrong with it;
* `scan`, `entries`: the outline of a file;
* **`parse_eq_ok`**: a file is accepted if every line has an entry, no depth is skipped and no key comes twice, and then the
  trees are those of the outline;
* **`first_error`**: the number in an error is that of the first line that the lines before it do not allow.
-/

set_option autoImplicit false

namespace Backend.Conf

/-- A key and its value. -/
abbrev Label := Str × Str

/-- A key may join its siblings. -/
def fresh (seen : List Label) (a : Label) : Bool := a.1.head? = some (chr '#') ∨ a.1 ∉ seen.map Prod.fst

/-- One line. -/
def parseLine (lineno : ℕ) (buf : Str) (s : Hole Label × ℕ) : Except Err (Hole Label × ℕ) :=
  let buf := rtrim buf
  if buf.length > maxLine then .error (.tooLong lineno buf.length)
  else if isEmptyStr buf then .ok s
  else
    let indent := (buf.takeWhile (· = chr '\t')).length
    if s.2 + 1 < indent then .error (.indent lineno)
    else
      match entry lineno (buf.dropWhile (· = chr '\t')) with
      | .error e => .error e
      | .ok kv =>
        if fresh (Hole.close^[s.2 + 1 - indent] s.1).here.labels kv then .ok (s.1.enter s.2 indent kv, indent)
        else .error (.duplicated lineno kv.1)

/-- The lines, one after the other. -/
def parseLoop : ℕ → List Str → Hole Label × ℕ → Except Err (Hole Label × ℕ)
  | _, [], s => .ok s
  | lineno, buf :: l, s =>
    match parseLine (lineno + 1) buf s with
    | .error e => .error e
    | .ok s => parseLoop (lineno + 1) l s

/-- The trees of a file. -/
def parse (file : Str) : Except Err (Trees Label) := (parseLoop 0 (bufs file) (⟨.nil, []⟩, 0)).map fun s => s.1.trees

/-! ## The outline of a file -/

/-- The entry of a line, if it has one: the depth, the key and the value. -/
def scan (lineno : ℕ) (buf : Str) : Except Err (Option (ℕ × Label)) :=
  let buf := rtrim buf
  if buf.length > maxLine then .error (.tooLong lineno buf.length)
  else if isEmptyStr buf then .ok none
  else (entry lineno (buf.dropWhile (· = chr '\t'))).map fun kv => some ((buf.takeWhile (· = chr '\t')).length, kv)

/-- The entries of the lines. -/
def entries : ℕ → List Str → Option (List (ℕ × Label))
  | _, [] => some []
  | lineno, buf :: l =>
    match scan (lineno + 1) buf with
    | .error _ => none
    | .ok none => entries (lineno + 1) l
    | .ok (some e) => (entries (lineno + 1) l).map fun l => e :: l

variable {lineno : ℕ} {buf : Str} {s s' : Hole Label × ℕ}

theorem parseLine_eq_ok : parseLine lineno buf s = .ok s' ↔
    scan lineno buf = .ok none ∧ s' = s ∨ ∃ e, scan lineno buf = .ok (some e) ∧ place fresh s e = some s' := by
  unfold parseLine scan
  simp only
  by_cases hlen : (rtrim buf).length > maxLine
  · simp only [if_pos hlen, reduceCtorEq, false_and, or_self, exists_false]
  simp only [if_neg hlen]
  by_cases hempty : isEmptyStr (rtrim buf) = true
  · simp only [if_pos hempty, Except.ok.injEq, true_and, reduceCtorEq, false_and, exists_false, or_false]
    exact eq_comm
  simp only [if_neg hempty]
  generalize (rtrim buf).dropWhile (· = chr '\t') = key
  generalize ((rtrim buf).takeWhile (· = chr '\t')).length = indent
  cases hentry : entry lineno key with
  | error e =>
    simp only [Except.map, reduceCtorEq, false_and, exists_false, or_self, iff_false]
    split_ifs <;> exact not_false
  | ok kv =>
    simp only [Except.map, Except.ok.injEq, reduceCtorEq, false_and, false_or, Option.some.injEq, exists_eq_left', place]
    split_ifs with hindent hfresh
    · exact iff_of_false (by rintro ⟨⟩) (by rintro ⟨⟩)
    · rw [Except.ok.injEq, Option.some.injEq]
    · exact iff_of_false (by rintro ⟨⟩) (by rintro ⟨⟩)

theorem parseLoop_eq_ok {l : List Str} : parseLoop lineno l s = .ok s' ↔
    ∃ es, entries lineno l = some es ∧ placeAll fresh s es = some s' := by
  induction l generalizing lineno s with
  | nil => simp only [parseLoop, entries, Option.some.injEq, exists_eq_left', placeAll, Except.ok.injEq]
  | cons buf l ih =>
    have hstep : parseLoop lineno (buf :: l) s = .ok s' ↔
        ∃ s₁, parseLine (lineno + 1) buf s = .ok s₁ ∧ parseLoop (lineno + 1) l s₁ = .ok s' := by
      rw [parseLoop]
      cases parseLine (lineno + 1) buf s with
      | error e => simp only [reduceCtorEq, false_and, exists_false]
      | ok s₁ => simp only [Except.ok.injEq, exists_eq_left']
    rw [hstep, entries]
    cases hscan : scan (lineno + 1) buf with
    | error e => simp only [parseLine_eq_ok, hscan, reduceCtorEq, false_and, exists_false, or_self]
    | ok o =>
      cases o with
      | none =>
        simp only [parseLine_eq_ok, hscan, true_and, Except.ok.injEq, reduceCtorEq, false_and, exists_false, or_false,
          exists_eq_left, ih]
      | some e =>
        simp only [parseLine_eq_ok, hscan, Except.ok.injEq, reduceCtorEq, false_and, false_or, Option.some.injEq,
          exists_eq_left', ih, Option.map_eq_some_iff]
        constructor
        · rintro ⟨s₁, hplace, es, hes, hall⟩
          exact ⟨e :: es, ⟨es, hes, rfl⟩, by rw [placeAll, hplace, Option.bind_some, hall]⟩
        · rintro ⟨_, ⟨es, hes, rfl⟩, hall⟩
          rw [placeAll] at hall
          obtain ⟨s₁, hplace, hall⟩ := Option.bind_eq_some_iff.mp hall
          exact ⟨s₁, hplace, es, hes, hall⟩

/-- **A file is accepted** if every line has an entry, no depth is skipped and no key comes twice among siblings; it has the
trees of its outline. -/
theorem parse_eq_ok {file : Str} {f : Trees Label} :
    parse file = .ok f ↔ ∃ es, entries 0 (bufs file) = some es ∧ build fresh es = some f := by
  have hparse : parse file = .ok f ↔
      ∃ s, parseLoop 0 (bufs file) (⟨.nil, []⟩, 0) = .ok s ∧ s.1.trees = f := by
    rw [parse]
    cases parseLoop 0 (bufs file) (⟨.nil, []⟩, 0) with
    | error e => simp only [Except.map, reduceCtorEq, false_and, exists_false]
    | ok s => simp only [Except.map, Except.ok.injEq, exists_eq_left']
  simp only [hparse, parseLoop_eq_ok, build, Option.map_eq_some_iff]
  constructor
  · rintro ⟨s, ⟨es, hes, hall⟩, ht⟩
    exact ⟨es, hes, s, hall, ht⟩
  · rintro ⟨es, hes, s, hall, ht⟩
    exact ⟨s, ⟨es, hes, hall⟩, ht⟩

/-! ## Errors -/

theorem lineno_of_entry {key : Str} {e : Err} (h : entry lineno key = .error e) : e.lineno = lineno := by
  unfold entry at h
  split_ifs at h with h₁ h₂
  · obtain rfl := Except.error.inj h
    rfl
  · cases hd : key.dropWhile fun c => !isKvSeperator c with
    | nil =>
      simp only [hd, Except.error.injEq] at h
      rw [← h]
      rfl
    | cons c val =>
      simp only [hd] at h
      split_ifs at h
      rw [← Except.error.inj h]
      rfl

theorem lineno_of_parseLine {e : Err} (h : parseLine lineno buf s = .error e) : e.lineno = lineno := by
  unfold parseLine at h
  simp only at h
  split_ifs at h with hlen hempty hindent
  · rw [← Except.error.inj h]
    rfl
  · rw [← Except.error.inj h]
    rfl
  · cases hentry : entry lineno ((rtrim buf).dropWhile (· = chr '\t')) with
    | error e' =>
      simp only [hentry, Except.error.injEq] at h
      rw [← h]
      exact lineno_of_entry hentry
    | ok kv =>
      simp only [hentry] at h
      split_ifs at h
      rw [← Except.error.inj h]
      rfl

theorem first_error_of_loop {l : List Str} {e : Err} (h : parseLoop lineno l s = .error e) :
    ∃ l₁ buf l₂ s₁, l = l₁ ++ buf :: l₂ ∧ e.lineno = lineno + l₁.length + 1 ∧ parseLoop lineno l₁ s = .ok s₁ ∧
      parseLine e.lineno buf s₁ = .error e := by
  induction l generalizing lineno s with
  | nil => cases h
  | cons buf l ih =>
    rw [parseLoop] at h
    cases hline : parseLine (lineno + 1) buf s with
    | error e' =>
      simp only [hline, Except.error.injEq] at h
      rw [h] at hline
      have hno := lineno_of_parseLine hline
      exact ⟨[], buf, l, s, rfl, hno, rfl, by rwa [hno]⟩
    | ok s₁ =>
      simp only [hline] at h
      obtain ⟨l₁, buf', l₂, s₂, rfl, hno, hloop, herr⟩ := ih h
      refine ⟨buf :: l₁, buf', l₂, s₂, rfl, ?_, ?_, herr⟩
      · rw [hno, List.length_cons]
        omega
      · rw [parseLoop, hline]
        exact hloop

/-- **An error** is about the first line that the lines before it do not allow, and has its number. -/
theorem first_error {file : Str} {e : Err} (h : parse file = .error e) :
    ∃ l₁ buf l₂ s, bufs file = l₁ ++ buf :: l₂ ∧ e.lineno = l₁.length + 1 ∧
      parseLoop 0 l₁ (⟨.nil, []⟩, 0) = .ok s ∧ parseLine e.lineno buf s = .error e := by
  have hloop : parseLoop 0 (bufs file) (⟨.nil, []⟩, 0) = .error e := by
    rw [parse] at h
    cases hs : parseLoop 0 (bufs file) (⟨.nil, []⟩, 0) with
    | error e' =>
      rw [hs] at h
      rw [Except.error.inj h]
    | ok s =>
      rw [hs] at h
      cases h
  obtain ⟨l₁, buf, l₂, s, hl, hno, hfine, herr⟩ := first_error_of_loop hloop
  exact ⟨l₁, buf, l₂, s, hl, by rwa [Nat.zero_add] at hno, hfine, herr⟩

end Backend.Conf
