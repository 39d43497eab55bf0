import Backend.Sql.Gather

/-!
# What the text of a condition means (`service_tornado/src/mysql.py`)

* `textOf`, **`getSql_build`**: `get_sql` writes the comparisons and connectives from left to right;
* `readSql`, `MeansSame`: a text read with the precedence of SQL, and the text of an expression that means the same;
* **`meansSame_operator_iff`**: written with operators, only a single comparison without `-` and `+` has such a text, for
  the other operators raise an exception;
* **`meansSame_name_iff`**: with the methods called by name the text means what the expression says exactly when no
  `__or__` is inside an operand of an `__and__`, for `get_sql` writes no parentheses.
-/

set_option autoImplicit false

namespace Backend.Sql

variable {V : Type*} {h : Heap V} {e : BoolTree (Atom V)}

/-- The text of a comparison: `str` of what it returns. -/
def atomSql (h : Heap V) (a : Atom V) : Text :=
  match (h a.self).compare .name a.cmp with
  | .ok c => c.str
  | .error _ => []

/-- The comparisons and connectives of an expression from left to right. -/
def textOf (s : Atom V → Text) : BoolTree (Atom V) → Text
  | .leaf a => s a ++ " ".toList
  | .node c e f => textOf s e ++ connText c ++ textOf s f

/-! ## Reading a text -/

/-- A connective at the start of a text, and what is behind it. -/
def readConn (t : Text) : Option (Conn × Text) :=
  match (connText .and).isPrefixOf? t with
  | some t => some (.and, t)
  | none => ((connText .or).isPrefixOf? t).map (Prod.mk .or)

/-- The connectives before each of the comparisons `atoms`. -/
def readConns : List Text → Text → Option (List Conn)
  | [], t => if t = [] then some [] else none
  | a :: atoms, t => do
    let (c, t) ← readConn t
    let t ← (a ++ " ".toList).isPrefixOf? t
    let cs ← readConns atoms t
    some (c :: cs)

/-- The truth value of a condition whose comparisons are `atoms`, where the `i`-th one has the value `v i`:
`AND` binds tighter than `OR`. -/
def readSql (v : ℕ → Bool) : List Text → Text → Option Bool
  | [], _ => none
  | a :: atoms, t => do
    let t ← (a ++ " ".toList).isPrefixOf? t
    let cs ← readConns atoms t
    some (chainValue v 1 (v 0) cs)

/-- The text behind the first comparison. -/
def chainText : List Text → List Conn → Text
  | a :: atoms, c :: cs => connText c ++ (a ++ " ".toList ++ chainText atoms cs)
  | _, _ => []

theorem chainText_append (as bs : List Text) (cs ds : List Conn) (hlen : as.length = cs.length) :
    chainText (as ++ bs) (cs ++ ds) = chainText as cs ++ chainText bs ds := by
  induction as generalizing cs with
  | nil =>
    obtain rfl := List.eq_nil_of_length_eq_zero hlen.symm
    rfl
  | cons a as ih =>
    cases cs with
    | nil => exact absurd hlen (by simp)
    | cons c cs =>
      simp only [List.cons_append, chainText, ih cs (by simpa using hlen), List.append_assoc]

theorem textOf_eq (s : Atom V → Text) (e : BoolTree (Atom V)) : ∃ a as, e.leaves.map s = a :: as ∧
    as.length = e.conns.length ∧ textOf s e = a ++ " ".toList ++ chainText as e.conns := by
  induction e with
  | leaf a => exact ⟨s a, [], rfl, rfl, by simp [textOf, chainText]⟩
  | node c e f ihe ihf =>
    obtain ⟨a, as, hleaves, hlen, htext⟩ := ihe
    obtain ⟨b, bs, hleaves', hlen', htext'⟩ := ihf
    refine ⟨a, as ++ b :: bs, ?_, ?_, ?_⟩
    · rw [BoolTree.leaves, List.map_append, hleaves, hleaves', List.cons_append]
    · simp [BoolTree.conns, hlen, hlen']
    · rw [textOf, htext, htext', BoolTree.conns, chainText_append _ _ _ _ hlen, chainText]
      simp only [List.append_assoc]

theorem isPrefixOf?_append (s t : Text) : s.isPrefixOf? (s ++ t) = some t :=
  List.isPrefixOf?_eq_some_iff_append_eq.mpr rfl

theorem readConn_append (c : Conn) (t : Text) : readConn (connText c ++ t) = some (c, t) := by
  cases c with
  | and => rw [readConn, isPrefixOf?_append]
  | or =>
    have hand : (connText .and).isPrefixOf? (connText .or ++ t) = none := rfl
    rw [readConn, hand, isPrefixOf?_append]
    rfl

theorem readConns_chainText (as : List Text) (cs : List Conn) (hlen : as.length = cs.length) :
    readConns as (chainText as cs) = some cs := by
  induction as generalizing cs with
  | nil =>
    obtain rfl := List.eq_nil_of_length_eq_zero hlen.symm
    rfl
  | cons a as ih =>
    cases cs with
    | nil => exact absurd hlen (by simp)
    | cons c cs =>
      simp only [readConns, chainText, readConn_append, isPrefixOf?_append, Option.bind_eq_bind, Option.bind_some,
        ih cs (by simpa using hlen)]

/-- **A text without parentheses is read as the chain of the connectives.** -/
theorem readSql_textOf (s : Atom V → Text) (e : BoolTree (Atom V)) (v : ℕ → Bool) :
    readSql v (e.leaves.map s) (textOf s e) = some (e.flat v 0) := by
  obtain ⟨a, as, hleaves, hlen, htext⟩ := textOf_eq s e
  rw [hleaves, htext, readSql, isPrefixOf?_append]
  simp only [Option.bind_eq_bind, Option.bind_some, readConns_chainText as _ hlen]
  rfl

/-! ## Building and writing -/

theorem textOf_eq_gathered (s : Atom V → Text) (e : BoolTree (Atom V)) :
    textOf s e = gathered (fun a => s a ++ " ".toList) id e := by
  induction e with
  | leaf a => rfl
  | node c e f ihe ihf => rw [textOf, gathered, ihe, ihf, id]

theorem atomOwn_sql (hf : Fresh h e) {a : Atom V} (ha : a ∈ e.leaves) :
    atomOwn (fun c => c.sql ++ " ".toList) h a = atomSql h a ++ " ".toList := by
  obtain ⟨sql, params, hcmp⟩ := compare_new (h a.self).fieldName a.cmp
  rw [← hf.eq_new _ (List.mem_map_of_mem ha)] at hcmp
  rw [atomOwn, atomSql, hcmp]
  rfl

/-- **`get_sql` writes the comparisons and connectives from left to right.** -/
theorem getSql_build (hf : Fresh h e) : ∃ r h', build .name e h = .ok (r, h') ∧
    ∀ fuel, e.size ≤ fuel → getSql h' fuel r = .ok (textOf (atomSql h) e) := by
  obtain ⟨r, h', hb, -, hg⟩ := build_gathers (fun c => c.sql ++ " ".toList) (fun _ _ => rfl) id hf
  refine ⟨r, h', hb, fun fuel hfuel => ?_⟩
  rw [getSql_eq_gather, hg.gather_eq (fun _ _ => rfl) hfuel, textOf_eq_gathered,
    gathered_congr fun a ha => atomOwn_sql hf ha]

/-! ## The meaning of the text -/

/-- An expression, with its methods called as `call` says, has a text that means the same: `get_sql` of the object that it
returns writes a text which, read with the precedence of SQL, has the truth value of the expression for all values of its
comparisons. -/
def MeansSame (call : Call) (h : Heap V) (e : BoolTree (Atom V)) : Prop :=
  ∃ self h' text, build call e h = .ok (self, h') ∧ (∀ fuel, e.size ≤ fuel → getSql h' fuel self = .ok text) ∧
    ∀ v, readSql v (e.leaves.map (atomSql h)) text = some (e.eval v 0)

theorem meansSame_of_flat (hf : Fresh h e) (hv : ∀ v, e.flat v 0 = e.eval v 0) : MeansSame .name h e := by
  obtain ⟨r, g, hb, hsql⟩ := getSql_build hf
  refine ⟨r, g, _, hb, hsql, fun v => ?_⟩
  rw [readSql_textOf, hv v]

/-- **Methods called by name**: the text means what the expression says exactly when no `__or__` is inside an operand of an
`__and__`. -/
theorem meansSame_name_iff (h : Heap V) (e : BoolTree (Atom V)) (hf : Fresh h e) :
    MeansSame .name h e ↔ e.orOfAnds = true := by
  rw [← BoolTree.flat_eq_eval_iff 0 e]
  constructor
  · rintro ⟨self, h', text, hb', htext, hv⟩ v
    obtain ⟨r, g, hb, hsql⟩ := getSql_build hf
    obtain ⟨rfl, rfl⟩ := Prod.mk.inj (Except.ok.inj (hb.symm.trans hb'))
    obtain rfl := Except.ok.inj ((hsql e.size (Nat.le_refl _)).symm.trans (htext e.size (Nat.le_refl _)))
    have := hv v
    rwa [readSql_textOf, Option.some.injEq] at this
  · exact meansSame_of_flat hf

/-- Fresh objects of the columns `a`, `b` and `c`. -/
def columns : Heap ℕ := fun i => Conds.new (if i = 0 then "a" else if i = 1 then "b" else "c").toList

/-- `a == 1`, `b == 1` and `c == 1` with the connectives `c₁` and `c₂`, where the first one is inside. -/
def three (c₁ c₂ : Conn) : BoolTree (Atom ℕ) :=
  .node c₂ (.node c₁ (.leaf ⟨0, .eq 1⟩) (.leaf ⟨1, .eq 1⟩)) (.leaf ⟨2, .eq 1⟩)

theorem meansSame_name_three : MeansSame .name columns (three .and .or) ∧ ¬ MeansSame .name columns (three .or .and) :=
  ⟨(meansSame_name_iff columns (three .and .or) ⟨by decide, fun _ _ => rfl⟩).mpr rfl, fun h =>
    Bool.noConfusion ((meansSame_name_iff columns (three .or .and) ⟨by decide, fun _ _ => rfl⟩).mp h)⟩

/-- `(a == 1).__or__(b == 1).__and__(c == 1)`: with only `a = 1` true, the text is true and the expression is not. -/
example : (build .name (three .or .and) columns >>= fun p => getSql p.2 3 p.1) =
      .ok "`a`=%s  OR `b`=%s  AND `c`=%s ".toList ∧
    readSql (fun i => i == 0) ((three .or .and).leaves.map (atomSql columns))
      "`a`=%s  OR `b`=%s  AND `c`=%s ".toList = some true ∧
    (three .or .and).eval (fun i => i == 0) 0 = false :=
  ⟨rfl, by decide, by decide⟩

/-- **Operators**: an expression has a text that means the same exactly when it is a single comparison without `-` and `+`;
every other expression raises an exception. -/
theorem meansSame_operator_iff (h : Heap V) (e : BoolTree (Atom V)) (hf : Fresh h e) :
    MeansSame .operator h e ↔ Plain e := by
  constructor
  · rintro ⟨self, h', text, hb, -⟩
    by_contra he
    obtain ⟨err, herr⟩ := exists_build he h
    rw [hb] at herr
    cases herr
  · intro he
    rw [MeansSame, build_operator he]
    apply meansSame_of_flat hf
    intro v
    cases e with
    | leaf a => rfl
    | node c e f => cases he

theorem meansSame_operator_leaf : MeansSame .operator columns (.leaf ⟨0, .eq 1⟩) :=
  (meansSame_operator_iff columns (.leaf ⟨0, .eq 1⟩) ⟨by decide, fun _ _ => rfl⟩).mpr rfl

/-- `(conds("a") == 1) & (conds("b") == 1)` raises an exception. -/
theorem not_meansSame_both : Fresh columns (.node .and (.leaf ⟨0, .eq 1⟩) (.leaf ⟨1, .eq 1⟩)) ∧
    build .operator (.node .and (.leaf ⟨0, .eq 1⟩) (.leaf ⟨1, .eq 1⟩)) columns =
      .error (.operational "Multiple Operate conditions") ∧
    ¬ MeansSame .operator columns (.node .and (.leaf ⟨0, .eq 1⟩) (.leaf ⟨1, .eq 1⟩)) := by
  refine ⟨⟨by decide, fun _ _ => rfl⟩, rfl, ?_⟩
  rintro ⟨self, h', text, hb, -⟩
  cases hb

end Backend.Sql
