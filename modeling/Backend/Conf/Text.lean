import Backend.Conf.Parse
import Mathlib.Data.List.TakeWhile

/-!
# The text of trees

* `Trimmed`, `trim_eq`, `trimmed_trim`: the functions on strings;
* `LabelOk`: the keys and values that a file can have; **`labelOk_of_parse`**: there are no others;
* `rows`, `rowText`, `text`: the lines of trees, and their text; `Fits`: a line that can be read again;
* `bufs_lines`, `scan_row`: the text, line by line;
* **`parse_text`**: the text of the trees of a file has these trees.
-/

set_option autoImplicit false

namespace Backend.Conf

/-! ## Strings -/

/-- No white space at the ends. -/
def Trimmed (s : Str) : Prop :=
  (∀ c ∈ s.head?, isWhitespace c = false) ∧ ∀ c ∈ s.getLast?, isWhitespace c = false

theorem rtrim_append {s w : Str} (hw : ∀ c ∈ w, isWhitespace c = true) : rtrim (s ++ w) = rtrim s := by
  rw [rtrim, rtrim, List.rdropWhile, List.rdropWhile, List.reverse_append,
    List.dropWhile_append_of_pos fun c hc => hw c (List.mem_reverse.mp hc)]

theorem rtrim_eq_self {s : Str} (h : ∀ c ∈ s.getLast?, isWhitespace c = false) : rtrim s = s := by
  rw [rtrim, List.rdropWhile_eq_self_iff]
  intro hne
  rw [h _ (List.getLast_mem_getLast? hne)]
  exact Bool.false_ne_true

theorem getLast?_rtrim (s : Str) : ∀ c ∈ (rtrim s).getLast?, isWhitespace c = false := by
  intro c hc
  obtain ⟨hne, rfl⟩ := List.mem_getLast?_eq_getLast hc
  exact Bool.eq_false_iff.mpr (List.rdropWhile_last_not _ s hne)

theorem ltrim_eq_self {s : Str} (h : ∀ c ∈ s.head?, isWhitespace c = false) : ltrim s = s := by
  cases s with
  | nil => rfl
  | cons c s => exact List.dropWhile_cons_of_neg (by rw [h c rfl]; exact Bool.false_ne_true)

theorem trim_eq {s w w' : Str} (hs : Trimmed s) (hw : ∀ c ∈ w, isWhitespace c = true)
    (hw' : ∀ c ∈ w', isWhitespace c = true) : trim (w ++ (s ++ w')) = s := by
  rw [trim, ltrim, List.dropWhile_append_of_pos hw]
  cases s with
  | nil =>
    rw [List.nil_append, List.dropWhile_eq_nil_iff.mpr hw']
    rfl
  | cons c s =>
    rw [List.cons_append, List.dropWhile_cons_of_neg (by rw [hs.1 c rfl]; exact Bool.false_ne_true), ← List.cons_append,
      rtrim_append hw', rtrim_eq_self hs.2]

theorem head?_dropWhile (s : Str) : ∀ c ∈ (s.dropWhile isWhitespace).head?, isWhitespace c = false := by
  intro c hc
  have hnot := List.head?_dropWhile_not isWhitespace s
  rw [Option.mem_def] at hc
  rwa [hc] at hnot

theorem trimmed_trim (s : Str) : Trimmed (trim s) := by
  refine ⟨fun c hc => ?_, getLast?_rtrim _⟩
  obtain ⟨t, ht⟩ := List.rdropWhile_prefix isWhitespace (ltrim s)
  apply head?_dropWhile s
  change c ∈ (ltrim s).head?
  rw [← ht, List.head?_append]
  change c ∈ (trim s).head?.or _
  rw [Option.mem_def.mp hc]
  rfl

theorem mem_of_mem_rtrim {s : Str} {c : UInt8} (h : c ∈ rtrim s) : c ∈ s :=
  (List.rdropWhile_prefix isWhitespace s).subset h

theorem mem_of_mem_trim {s : Str} {c : UInt8} (h : c ∈ trim s) : c ∈ s :=
  (List.dropWhile_suffix isWhitespace).subset (mem_of_mem_rtrim h)

/-! ## What can be in a file -/

/-- Characters of a line. -/
def Line (s : Str) : Prop := ∀ c ∈ s, c ≠ 0 ∧ c ≠ chr '\n'

/-- A comment, or a key with its value. -/
inductive LabelOk : Label → Prop
  | comment {v : Str} : Line v → (∀ c ∈ v.getLast?, isWhitespace c = false) → LabelOk ([chr '#'], v)
  | setting {k v : Str} : Line k → Line v → k.head? ≠ some (chr '#') → (∀ c ∈ k, isKvSeperator c = false) → Trimmed k →
      Trimmed v → LabelOk (k, v)

theorem fgetsAll_lines {s cur : Str} {room : ℕ} (hcur : ∀ c ∈ cur, c ≠ chr '\n') :
    ∀ buf ∈ fgetsAll cur room s, ∃ w, (∀ c ∈ w, c ≠ chr '\n') ∧ (buf = w ∨ buf = w ++ [chr '\n']) := by
  induction s generalizing cur room with
  | nil =>
    intro buf hbuf
    rw [fgetsAll] at hbuf
    cases cur with
    | nil => exact absurd hbuf List.not_mem_nil
    | cons c cur => exact ⟨c :: cur, hcur, .inl (List.mem_singleton.mp hbuf)⟩
  | cons c s ih =>
    intro buf hbuf
    have hnext : c ≠ chr '\n' → ∀ x ∈ cur ++ [c], x ≠ chr '\n' := by
      intro hc x hx
      rcases List.mem_append.mp hx with hx | hx
      · exact hcur x hx
      · rwa [List.mem_singleton.mp hx]
    rw [fgetsAll] at hbuf
    by_cases hc : c = chr '\n'
    · rw [if_pos (.inl hc)] at hbuf
      rcases List.mem_cons.mp hbuf with rfl | hbuf
      · exact ⟨cur, hcur, .inr (by rw [hc])⟩
      · exact ih (fun x hx => absurd hx List.not_mem_nil) buf hbuf
    · by_cases hroom : room ≤ 1
      · rw [if_pos (.inr hroom)] at hbuf
        rcases List.mem_cons.mp hbuf with rfl | hbuf
        · exact ⟨cur ++ [c], hnext hc, .inl rfl⟩
        · exact ih (fun x hx => absurd hx List.not_mem_nil) buf hbuf
      · rw [if_neg (not_or.mpr ⟨hc, hroom⟩)] at hbuf
        exact ih (hnext hc) buf hbuf

theorem line_of_bufs {file buf : Str} (h : buf ∈ bufs file) : Line (rtrim buf) := by
  obtain ⟨chunk, hchunk, rfl⟩ := List.mem_map.mp h
  obtain ⟨w, hw, hor⟩ := fgetsAll_lines (fun c hc => absurd hc List.not_mem_nil) chunk hchunk
  have hnl : isWhitespace (chr '\n') = true := by decide
  have hsub : ∀ c ∈ rtrim (chunk.takeWhile (· ≠ 0)), c ∈ w := by
    intro c hc
    rcases hor with rfl | rfl
    · exact (List.takeWhile_prefix _).subset (mem_of_mem_rtrim hc)
    · rw [List.takeWhile_append] at hc
      split_ifs at hc with hall
      · have hstep : [chr '\n'].takeWhile (· ≠ (0 : UInt8)) = [chr '\n'] := by decide
        rw [hstep, rtrim_append fun c hc => by rwa [List.mem_singleton.mp hc]] at hc
        exact mem_of_mem_rtrim hc
      · exact (List.takeWhile_prefix _).subset (mem_of_mem_rtrim hc)
  intro c hc
  refine ⟨?_, hw c (hsub c hc)⟩
  have := List.mem_takeWhile_imp (mem_of_mem_rtrim hc)
  exact of_decide_eq_true this

theorem labelOk_of_entry {lineno : ℕ} {key : Str} {kv : Label} (hline : Line key)
    (hlast : ∀ c ∈ key.getLast?, isWhitespace c = false) (h : entry lineno key = .ok kv) : LabelOk kv := by
  unfold entry at h
  split_ifs at h with hcomment hspace
  · rw [← Except.ok.inj h]
    refine .comment (fun c hc => hline c (List.mem_of_mem_tail hc)) fun c hc => hlast c ?_
    cases key with
    | nil => cases hc
    | cons x l =>
      change c ∈ l.getLast? at hc
      rw [List.getLast?_cons, Option.mem_def.mp hc]
      rfl
  · have hsub : ∀ c ∈ key.takeWhile fun c => !isKvSeperator c, c ∈ key := fun c hc =>
      (List.takeWhile_prefix _).subset hc
    cases hd : key.dropWhile fun c => !isKvSeperator c with
    | nil =>
      rw [hd] at h
      cases h
    | cons c val =>
      have hval : ∀ x ∈ val, x ∈ key := fun x hx =>
        (List.dropWhile_suffix _).subset (by rw [hd]; exact List.mem_cons_of_mem c hx)
      rw [hd] at h
      simp only at h
      split_ifs at h
      rw [← Except.ok.inj h]
      refine .setting (fun x hx => hline x (hsub x (mem_of_mem_trim hx))) (fun x hx => hline x (hval x (mem_of_mem_trim hx)))
        ?_ (fun x hx => ?_) (trimmed_trim _) (trimmed_trim _)
      · intro hhash
        -- the first character of the key is that of the line
        obtain ⟨x, l, rfl⟩ : ∃ x l, key = x :: l := by
          cases key with
          | nil => cases hd
          | cons x l => exact ⟨x, l, rfl⟩
        have hx : isWhitespace x = false := Bool.eq_false_iff.mpr hspace
        by_cases hsep : isKvSeperator x = true
        · rw [List.takeWhile_cons_of_neg (by rw [hsep]; exact Bool.false_ne_true)] at hhash
          cases hhash
        · rw [List.takeWhile_cons_of_pos (by rw [Bool.eq_false_iff.mpr hsep]; rfl), trim,
            ltrim_eq_self fun c hc => by
              obtain rfl := Option.some.inj hc
              exact hx] at hhash
          obtain ⟨t, ht⟩ := List.rdropWhile_prefix isWhitespace (x :: l.takeWhile fun c => !isKvSeperator c)
          change (List.rdropWhile isWhitespace (x :: l.takeWhile fun c => !isKvSeperator c)).head? = some (chr '#') at hhash
          generalize List.rdropWhile isWhitespace (x :: l.takeWhile fun c => !isKvSeperator c) = r at ht hhash
          cases r with
          | nil => cases hhash
          | cons y r =>
            have hxy : y = x := (List.cons.inj ht).1
            obtain rfl := Option.some.inj hhash
            exact hcomment (by rw [← hxy]; rfl)
      · have := List.mem_takeWhile_imp (mem_of_mem_trim hx)
        rwa [Bool.not_eq_true'] at this

theorem labelOk_of_scan {lineno : ℕ} {buf : Str} {e : ℕ × Label} (hline : Line (rtrim buf))
    (h : scan lineno buf = .ok (some e)) : LabelOk e.2 := by
  unfold scan at h
  simp only at h
  split_ifs at h with hlen hempty
  · cases h
  · cases hentry : entry lineno ((rtrim buf).dropWhile (· = chr '\t')) with
    | error err =>
      rw [hentry] at h
      cases h
    | ok kv =>
      rw [hentry] at h
      obtain rfl := Option.some.inj (Except.ok.inj h)
      obtain ⟨p, hp⟩ := List.dropWhile_suffix (fun c => decide (c = chr '\t')) (l := rtrim buf)
      refine labelOk_of_entry (fun c hc => hline c ((List.dropWhile_suffix _).subset hc)) (fun c hc => ?_) hentry
      apply getLast?_rtrim buf
      rw [← hp, List.getLast?_append, Option.mem_def.mp hc]
      rfl

theorem labelOk_of_entries {lineno : ℕ} {l : List Str} {es : List (ℕ × Label)} (hl : ∀ buf ∈ l, Line (rtrim buf))
    (h : entries lineno l = some es) : ∀ e ∈ es, LabelOk e.2 := by
  induction l generalizing lineno es with
  | nil =>
    rw [entries, Option.some.injEq] at h
    rw [← h]
    exact fun e he => absurd he List.not_mem_nil
  | cons buf l ih =>
    have htail := fun b hb => hl b (List.mem_cons_of_mem buf hb)
    rw [entries] at h
    cases hscan : scan (lineno + 1) buf with
    | error err =>
      rw [hscan] at h
      cases h
    | ok o =>
      rw [hscan] at h
      cases o with
      | none => exact ih htail h
      | some e =>
        obtain ⟨es, hes, rfl⟩ := Option.map_eq_some_iff.mp h
        intro e' he'
        rcases List.mem_cons.mp he' with rfl | he'
        · exact labelOk_of_scan (hl buf List.mem_cons_self) hscan
        · exact ih htail hes e' he'

/-- **What is in the trees of a file**: comments, and trimmed keys without separators with trimmed values. -/
theorem labelOk_of_parse {file : Str} {f : Trees Label} (h : parse file = .ok f) : ∀ a ∈ f.all, LabelOk a := by
  obtain ⟨es, hes, hbuild⟩ := parse_eq_ok.mp h
  rw [labels_of_build hbuild]
  intro a ha
  obtain ⟨e, he, rfl⟩ := List.mem_map.mp ha
  exact labelOk_of_entries (fun buf hbuf => line_of_bufs hbuf) hes e he

/-! ## Writing -/

/-- The lines of trees: the depth, the key and the value, and that there is nothing below. -/
def rows (d : ℕ) : Trees Label → List (ℕ × Label × Bool)
  | .nil => []
  | .cons a kids rest => (d, a, kids.labels.isEmpty) :: (rows (d + 1) kids ++ rows d rest)

/-- The separator. -/
def sep (leaf : Bool) : UInt8 := if leaf then chr '=' else chr ':'

/-- The text of a line. -/
def rowText (r : ℕ × Label × Bool) : Str :=
  List.replicate r.1 (chr '\t') ++
    (if r.2.1.1.head? = some (chr '#') then chr '#' :: r.2.1.2 else r.2.1.1 ++ [chr ' ', sep r.2.2, chr ' '] ++ r.2.1.2)

/-- The text of trees. -/
def text (d : ℕ) (f : Trees Label) : Str := (rows d f).flatMap fun r => rowText r ++ [chr '\n']

/-- The line can be read again: it has a key, and is not too long. -/
def Fits (r : ℕ × Label × Bool) : Prop := r.2.1.1 ≠ [] ∧ (rtrim (rowText r)).length ≤ maxLine

instance (r : ℕ × Label × Bool) : Decidable (Fits r) := by unfold Fits; infer_instance

theorem text_cons (d : ℕ) (a : Label) (kids rest : Trees Label) : text d (.cons a kids rest) =
    rowText (d, a, kids.labels.isEmpty) ++ [chr '\n'] ++ text (d + 1) kids ++ text d rest := by
  rw [text, rows, List.flatMap_cons, List.flatMap_append, ← List.append_assoc]
  rfl

theorem map_rows (d : ℕ) (f : Trees Label) : (rows d f).map (fun r => (r.1, r.2.1)) = f.outline d := by
  induction f generalizing d with
  | nil => rfl
  | cons a kids rest ihk ihr => rw [rows, Trees.outline, List.map_cons, List.map_append, ihk, ihr]

theorem fgetsAll_line {w : Str} (hw : ∀ c ∈ w, c ≠ chr '\n') {cur : Str} {room : ℕ} (hroom : w.length < room) (s : Str) :
    fgetsAll cur room (w ++ chr '\n' :: s) = (cur ++ w ++ [chr '\n']) :: fgetsAll [] (maxLine + 2) s := by
  induction w generalizing cur room with
  | nil => rw [List.nil_append, fgetsAll, if_pos (.inl rfl), List.append_nil]
  | cons c w ih =>
    rw [List.length_cons] at hroom
    have hc : ¬ (c = chr '\n' ∨ room ≤ 1) := not_or.mpr ⟨hw c List.mem_cons_self, by omega⟩
    rw [List.cons_append, fgetsAll, if_neg hc, ih (fun x hx => hw x (List.mem_cons_of_mem c hx)) (by omega),
      List.append_assoc cur]
    rfl

theorem bufs_lines {l : List Str} (hl : ∀ w ∈ l, Line w ∧ w.length < maxLine + 2) :
    bufs (l.flatMap fun w => w ++ [chr '\n']) = l.map fun w => w ++ [chr '\n'] := by
  induction l with
  | nil => rfl
  | cons w l ih =>
    obtain ⟨hw, hlen⟩ := hl w List.mem_cons_self
    have htake : (w ++ [chr '\n']).takeWhile (· ≠ (0 : UInt8)) = w ++ [chr '\n'] := by
      rw [List.takeWhile_eq_self_iff]
      intro c hc
      rcases List.mem_append.mp hc with hc | hc
      · exact decide_eq_true (hw c hc).1
      · rw [List.mem_singleton.mp hc]
        decide
    have hrest := ih fun x hx => hl x (List.mem_cons_of_mem w hx)
    rw [bufs] at hrest ⊢
    rw [List.flatMap_cons, List.append_assoc, List.singleton_append, fgetsAll_line (fun c hc => (hw c hc).2) hlen,
      List.map_cons, List.nil_append, htake, hrest, List.map_cons]

theorem rowText_comment (d : ℕ) (v : Str) (leaf : Bool) :
    rowText (d, ([chr '#'], v), leaf) = List.replicate d (chr '\t') ++ chr '#' :: v := by
  rw [rowText]
  exact congrArg _ (if_pos rfl)

theorem rowText_setting (d : ℕ) {k : Str} (hk : k.head? ≠ some (chr '#')) (v : Str) (leaf : Bool) :
    rowText (d, (k, v), leaf) = List.replicate d (chr '\t') ++ (k ++ [chr ' ', sep leaf, chr ' '] ++ v) := by
  rw [rowText]
  exact congrArg _ (if_neg hk)

theorem line_rowText {r : ℕ × Label × Bool} (h : LabelOk r.2.1) : Line (rowText r) := by
  obtain ⟨d, a, leaf⟩ := r
  have htab : ∀ c ∈ List.replicate d (chr '\t'), c ≠ 0 ∧ c ≠ chr '\n' := by
    intro c hc
    rw [List.eq_of_mem_replicate hc]
    decide
  have hblank : chr ' ' ≠ 0 ∧ chr ' ' ≠ chr '\n' := by decide
  have hsep : sep leaf ≠ 0 ∧ sep leaf ≠ chr '\n' := by cases leaf <;> decide
  have hmid : ∀ c ∈ [chr ' ', sep leaf, chr ' '], c ≠ 0 ∧ c ≠ chr '\n' :=
    List.forall_mem_cons.mpr ⟨hblank, List.forall_mem_cons.mpr ⟨hsep, List.forall_mem_singleton.mpr hblank⟩⟩
  intro c hc
  cases h with
  | comment hv _ =>
    rw [rowText_comment] at hc
    rcases List.mem_append.mp hc with hc | hc
    · exact htab c hc
    · rcases List.mem_cons.mp hc with rfl | hc
      · decide
      · exact hv c hc
  | setting hk hv hhead _ _ _ =>
    rw [rowText_setting d hhead] at hc
    rcases List.mem_append.mp hc with hc | hc
    · exact htab c hc
    rcases List.mem_append.mp hc with hc | hc
    · rcases List.mem_append.mp hc with hc | hc
      · exact hk c hc
      · exact hmid c hc
    · exact hv c hc

theorem rtrim_comment (d : ℕ) {v : Str} (hlast : ∀ c ∈ v.getLast?, isWhitespace c = false) (leaf : Bool) :
    rtrim (rowText (d, ([chr '#'], v), leaf)) = rowText (d, ([chr '#'], v), leaf) := by
  rw [rowText_comment, rtrim_eq_self]
  intro c hc
  rw [List.getLast?_append, List.getLast?_cons] at hc
  cases hcase : v.getLast? with
  | none =>
    rw [hcase] at hc
    rw [← Option.some.inj hc]
    decide
  | some x =>
    rw [hcase] at hc
    rw [← Option.some.inj hc]
    exact hlast x hcase

theorem rtrim_setting {k v : Str} (hv : Trimmed v) {p : Str} {sep : UInt8} (hsep : isWhitespace sep = false) :
    ∃ w, (∀ c ∈ w, isWhitespace c = true) ∧
      rtrim (p ++ (k ++ [chr ' ', sep, chr ' '] ++ v)) = p ++ (k ++ chr ' ' :: sep :: (w ++ v)) := by
  have hblank : isWhitespace (chr ' ') = true := by decide
  cases hcase : v with
  | nil =>
    refine ⟨[], fun c hc => absurd hc List.not_mem_nil, ?_⟩
    have hassoc : p ++ (k ++ [chr ' ', sep, chr ' '] ++ []) = (p ++ (k ++ [chr ' ', sep])) ++ [chr ' '] := by
      simp only [List.append_assoc, List.append_nil, List.cons_append, List.nil_append]
    rw [hassoc, rtrim_append fun c hc => by rwa [List.mem_singleton.mp hc], rtrim_eq_self]
    · rfl
    · intro c hc
      have hlast : (p ++ (k ++ [chr ' ', sep])).getLast? = some sep := by
        rw [List.getLast?_append, List.getLast?_append]
        rfl
      rw [hlast] at hc
      rwa [← Option.some.inj hc]
  | cons x l =>
    refine ⟨[chr ' '], fun c hc => by rwa [List.mem_singleton.mp hc], ?_⟩
    rw [rtrim_eq_self]
    · simp only [List.append_assoc, List.cons_append, List.nil_append]
    · intro c hc
      apply hv.2
      rw [hcase]
      rw [List.getLast?_append, List.getLast?_append, List.getLast?_cons] at hc
      rw [List.getLast?_cons]
      exact hc

theorem split_tabs (d : ℕ) {s : Str} (hs : ∀ c ∈ s.head?, c ≠ chr '\t') :
    ((List.replicate d (chr '\t') ++ s).takeWhile (· = chr '\t')).length = d ∧
      (List.replicate d (chr '\t') ++ s).dropWhile (· = chr '\t') = s := by
  have htab : ∀ c ∈ List.replicate d (chr '\t'), decide (c = chr '\t') = true := fun c hc =>
    decide_eq_true (List.eq_of_mem_replicate hc)
  rw [List.takeWhile_append_of_pos htab, List.dropWhile_append_of_pos htab]
  cases s with
  | nil => exact ⟨by rw [List.takeWhile_nil, List.append_nil, List.length_replicate], rfl⟩
  | cons c s =>
    have hc : ¬ decide (c = chr '\t') = true := fun h => hs c rfl (of_decide_eq_true h)
    rw [List.takeWhile_cons_of_neg (p := fun c => decide (c = chr '\t')) hc,
      List.dropWhile_cons_of_neg (p := fun c => decide (c = chr '\t')) hc, List.append_nil, List.length_replicate]
    exact ⟨rfl, rfl⟩

theorem isEmptyStr_append {p s : Str} {c : UInt8} (hc : isWhitespace c = false) : isEmptyStr (p ++ c :: s) = false := by
  rw [isEmptyStr, List.isEmpty_eq_false_iff, ne_eq, List.dropWhile_eq_nil_iff]
  intro h
  rw [h c (List.mem_append_right _ List.mem_cons_self)] at hc
  cases hc

theorem entry_setting (lineno : ℕ) {k v w : Str} (hne : k ≠ []) (hk : Trimmed k) (hv : Trimmed v)
    (hhead : k.head? ≠ some (chr '#')) (hkv : ∀ c ∈ k, isKvSeperator c = false) (hw : ∀ c ∈ w, isWhitespace c = true)
    (leaf : Bool) : entry lineno (k ++ chr ' ' :: sep leaf :: (w ++ v)) = .ok (k, v) := by
  obtain ⟨c, l, rfl⟩ := List.exists_cons_of_ne_nil hne
  have hsep : isKvSeperator (sep leaf) = true := by cases leaf <;> decide
  have hfirst : ¬ isWhitespace ((c :: l ++ chr ' ' :: sep leaf :: (w ++ v)).headD 0) = true := by
    rw [List.cons_append, List.headD_cons, hk.1 c rfl]
    exact Bool.false_ne_true
  -- the key with its blank, up to the separator
  have hkey : ∀ x ∈ c :: l ++ [chr ' '], (!isKvSeperator x) = true := by
    intro x hx
    rcases List.mem_append.mp hx with hx | hx
    · rw [hkv x hx]
      rfl
    · rw [List.mem_singleton.mp hx]
      decide
  have hstop : ¬ (!isKvSeperator (sep leaf)) = true := by
    rw [hsep]
    decide
  have hassoc : c :: l ++ chr ' ' :: sep leaf :: (w ++ v) = c :: l ++ [chr ' '] ++ sep leaf :: (w ++ v) := by
    rw [List.append_assoc]
    rfl
  have hblank : ∀ x ∈ [chr ' '], isWhitespace x = true := List.forall_mem_singleton.mpr (by decide)
  have htrim : trim (c :: l ++ [chr ' ']) = c :: l := trim_eq (w := []) hk (fun x hx => absurd hx List.not_mem_nil) hblank
  have hval : trim (w ++ v) = v := by
    have := trim_eq hv hw (show ∀ c ∈ ([] : Str), isWhitespace c = true from fun x hx => absurd hx List.not_mem_nil)
    rwa [List.append_nil] at this
  rw [entry, if_neg (by exact hhead), if_neg hfirst, hassoc, List.dropWhile_append_of_pos hkey,
    List.takeWhile_append_of_pos hkey, List.dropWhile_cons_of_neg (p := fun c => !isKvSeperator c) hstop,
    List.takeWhile_cons_of_neg (p := fun c => !isKvSeperator c) hstop]
  simp only [hsep, Bool.not_true, Bool.false_eq_true, if_false, List.append_nil, htrim, hval]

/-- **A line is read again.** -/
theorem scan_row (lineno : ℕ) {r : ℕ × Label × Bool} (h : LabelOk r.2.1) (hfits : Fits r) :
    scan lineno (rowText r ++ [chr '\n']) = .ok (some (r.1, r.2.1)) := by
  obtain ⟨d, a, leaf⟩ := r
  obtain ⟨hne, hlen⟩ := hfits
  have hnl : ∀ c ∈ [chr '\n'], isWhitespace c = true := List.forall_mem_singleton.mpr (by decide)
  rw [scan, rtrim_append hnl, if_neg (Nat.not_lt.mpr hlen)]
  cases h with
  | @comment v hv hlast =>
    have hentry : entry lineno (chr '#' :: v) = .ok ([chr '#'], v) := by
      rw [entry]
      exact if_pos rfl
    obtain ⟨hd, hrest⟩ := split_tabs d (s := chr '#' :: v) fun c hc => by
      rw [← Option.some.inj hc]
      decide
    rw [rtrim_comment d hlast, rowText_comment, hd, hrest,
      if_neg (by rw [isEmptyStr_append (by decide)]; exact Bool.false_ne_true), hentry]
    rfl
  | @setting k v hk hv hhead hkv hktrim hvtrim =>
    have hsep : isWhitespace (sep leaf) = false := by cases leaf <;> decide
    obtain ⟨w, hw, htrim⟩ := rtrim_setting hvtrim (k := k) (p := List.replicate d (chr '\t')) hsep
    obtain ⟨hd, hrest⟩ := split_tabs d (s := k ++ chr ' ' :: sep leaf :: (w ++ v)) fun c hc => by
      obtain ⟨x, l, rfl⟩ := List.exists_cons_of_ne_nil hne
      rintro rfl
      have hx := hktrim.1 x rfl
      rw [Option.some.inj hc] at hx
      revert hx
      decide
    have hempty : isEmptyStr (List.replicate d (chr '\t') ++ (k ++ chr ' ' :: sep leaf :: (w ++ v))) = false := by
      have hassoc : List.replicate d (chr '\t') ++ (k ++ chr ' ' :: sep leaf :: (w ++ v)) =
          (List.replicate d (chr '\t') ++ (k ++ [chr ' '])) ++ sep leaf :: (w ++ v) := by
        simp only [List.append_assoc, List.cons_append, List.nil_append]
      rw [hassoc, isEmptyStr_append hsep]
    rw [rowText_setting d hhead, htrim, hd, hrest, if_neg (by rw [hempty]; exact Bool.false_ne_true),
      entry_setting lineno hne hktrim hvtrim hhead hkv hw leaf]
    rfl

theorem length_rowText {r : ℕ × Label × Bool} (h : LabelOk r.2.1) (hfits : Fits r) :
    (rowText r).length < maxLine + 2 := by
  obtain ⟨d, a, leaf⟩ := r
  obtain ⟨_, hlen⟩ := hfits
  cases h with
  | comment _ hlast =>
    rw [rtrim_comment d hlast] at hlen
    omega
  | @setting k v hk hv hhead hkv hktrim hvtrim =>
    have hsep : isWhitespace (sep leaf) = false := by cases leaf <;> decide
    obtain ⟨w, _, htrim⟩ := rtrim_setting hvtrim (k := k) (p := List.replicate d (chr '\t')) hsep
    rw [rowText_setting d hhead, htrim] at hlen
    rw [rowText_setting d hhead]
    simp only [List.length_append, List.length_cons, List.length_nil] at hlen ⊢
    omega

theorem entries_rows {l : List (ℕ × Label × Bool)} (hl : ∀ r ∈ l, LabelOk r.2.1 ∧ Fits r) (lineno : ℕ) :
    entries lineno (l.map fun r => rowText r ++ [chr '\n']) = some (l.map fun r => (r.1, r.2.1)) := by
  induction l generalizing lineno with
  | nil => rfl
  | cons r l ih =>
    obtain ⟨hok, hfits⟩ := hl r List.mem_cons_self
    rw [List.map_cons, entries, scan_row _ hok hfits, List.map_cons]
    exact congrArg (Option.map _) (ih (fun r hr => hl r (List.mem_cons_of_mem _ hr)) (lineno + 1))

/-- **The text of trees** has these trees, if every line of it fits. -/
theorem parse_text {f : Trees Label} (hfresh : f.Fresh fresh []) (hok : ∀ a ∈ f.all, LabelOk a)
    (hfits : ∀ r ∈ rows 0 f, Fits r) : parse (text 0 f) = .ok f := by
  have hrows : ∀ r ∈ rows 0 f, LabelOk r.2.1 ∧ Fits r := by
    intro r hr
    refine ⟨hok _ ?_, hfits r hr⟩
    rw [← Trees.map_outline 0, ← map_rows, List.map_map]
    exact List.mem_map.mpr ⟨r, hr, rfl⟩
  have hlines : bufs (text 0 f) = (rows 0 f).map fun r => rowText r ++ [chr '\n'] := by
    have hbufs := bufs_lines (l := (rows 0 f).map rowText) fun w hw => by
      obtain ⟨r, hr, rfl⟩ := List.mem_map.mp hw
      exact ⟨line_rowText (hrows r hr).1, length_rowText (hrows r hr).1 (hrows r hr).2⟩
    rwa [List.flatMap_map, List.map_map] at hbufs
  rw [parse_eq_ok]
  refine ⟨f.outline 0, ?_, build_outline hfresh⟩
  rw [hlines, entries_rows hrows, map_rows]

end Backend.Conf
