import Backend.Lib.Precedence
import Mathlib.Logic.Function.Basic

/-!
# The class `conds` (`service_tornado/src/mysql.py`)

* `Conds`, `Conds.new`, `Conds.prepare`, `Conds.getattr`: the object, `__init__`, `_prepare` and `__getattr__`;
* `Conds.sub` … `Conds.notIn`, `Cmp`: the comparisons;
* `Heap.and`, `Heap.or`: `__and__` and `__or__`, which change their left operand;
* `Conds.binary`, `Conds.compare`, `build`: what an operator does, and an expression of comparisons, `&` and `|`;
* `getSql`, `getParams`: `get_sql()` and `get_params()`.

A `conds` object is a place of the `Heap`. A value that is compared with is of any type `V`: the values of the
classes `database.conds` and `database.Select`, for which `__eq__`, `In` and `Not_In` have a branch of their own,
are not among them.

The program is of Python 2 and `conds` is no subclass of `object`. For an instance of such a class the operators
`&`, `|`, `-` and `+` look up `__coerce__` before the method of the operator, and a truth test looks up `__nonzero__`;
`conds` has neither, so that its `__getattr__` is called. The comparisons `==`, `<>`, `<`, … look up their own
methods only.
-/

set_option autoImplicit false

namespace Backend.Sql

open Function

/-- A Python string. -/
abbrev Text := List Char

/-- The exceptions. -/
inductive Err where
  /-- `OperationalError` with its text. -/
  | operational (text : String)
  /-- `NameError` of a global name. -/
  | name (name : String)
  /-- `KeyError`. -/
  | key
  /-- `IndexError`. -/
  | index
  /-- A recursion that does not end. -/
  | recursion
deriving DecidableEq

section

universe u

variable {ε : Type*} {α β : Type u}

@[simp] theorem ok_bind (a : α) (f : α → Except ε β) : (Except.ok a >>= f) = f a := rfl

@[simp] theorem error_bind (e : ε) (f : α → Except ε β) : (Except.error e >>= f) = Except.error e := rfl

theorem bind_eq_ok {x : Except ε α} {f : α → Except ε β} {b : β} :
    (x >>= f) = .ok b ↔ ∃ a, x = .ok a ∧ f a = .ok b := by
  cases x with
  | error e => simp
  | ok a => simp

theorem exists_error_bind (x : Except ε α) {f : α → Except ε β} (h : ∀ a, ∃ e, f a = .error e) :
    ∃ e, (x >>= f) = .error e := by
  cases x with
  | error e => exact ⟨e, rfl⟩
  | ok a => exact h a

end

variable {V : Type*}

/-- The fields of a `conds` object. -/
structure Conds (V : Type*) where
  fieldName : Text
  sql : Text
  params : List V
  hasValue : Bool
  subConds : List (ℕ × Text)

/-- `__init__(field)`. -/
def Conds.new (field : Text) : Conds V :=
  { fieldName := field, sql := [], params := [], hasValue := false, subConds := [] }

/-- `_prepare(sql, value)`. -/
def Conds.prepare (c : Conds V) (sql : Text) (value : V) : Except Err (Conds V) :=
  if !c.hasValue then .ok { c with sql := sql, params := c.params ++ [value], hasValue := true }
  else .error (.operational "Multiple Operate conditions")

/-- `__str__`. -/
def Conds.str (c : Conds V) : Text := if c.hasValue then c.sql else c.fieldName

/-- `__getattr__(func_name)`, which is called for a name that is neither in the object nor in the class: there is no global
name `array`. -/
def Conds.getattr {α : Type*} (c : Conds V) (_funcName : String) : Except Err α :=
  if !c.hasValue then .error (.name "array") else .error (.operational "Multiple Operate conditions")

/-! ## Comparisons -/

/-- A comparison of the column: `` `f` `` and what comes behind it. -/
def Conds.column (c : Conds V) (op : String) (value : V) : Except Err (Conds V) :=
  c.prepare ("`".toList ++ c.fieldName ++ "`".toList ++ op.toList) value

/-- A comparison of `DATE_FORMAT`. -/
def Conds.dateFormat (c : Conds V) (op : String) (format : Text) (value : V) : Except Err (Conds V) :=
  c.prepare ("DATE_FORMAT(`".toList ++ c.fieldName ++ "`,'".toList ++ format ++ "')".toList ++ op.toList) value

/-- `",".join(["".join(['\'', i, '\'']) for i in array])`. -/
def quoted (array : List Text) : Text :=
  List.intercalate ",".toList (array.map fun i => "'".toList ++ i ++ "'".toList)

/-- A test for being one of `array`; no value is passed as a parameter. -/
def Conds.within (c : Conds V) (op : String) (array : List Text) : Except Err (Conds V) :=
  if !c.hasValue then
    .ok { c with
      sql := "`".toList ++ c.fieldName ++ "`".toList ++ op.toList ++ quoted array ++ ")".toList
      hasValue := true }
  else .error (.operational "Multiple Operate conditions")

/-- `__sub__`. -/
def Conds.sub (c : Conds V) : V → Except Err (Conds V) := c.column "-%s"

/-- `__add__`. -/
def Conds.add (c : Conds V) : V → Except Err (Conds V) := c.column "+%s"

/-- `__ne__`. -/
def Conds.ne (c : Conds V) : V → Except Err (Conds V) := c.column "<>%s"

/-- `__eq__`. -/
def Conds.eq (c : Conds V) : V → Except Err (Conds V) := c.column "=%s"

/-- `like`. -/
def Conds.like (c : Conds V) : V → Except Err (Conds V) := c.column " like %s"

/-- `DL`. -/
def Conds.dl (c : Conds V) : Text → V → Except Err (Conds V) := c.dateFormat "<=%s"

/-- `DG`. -/
def Conds.dg (c : Conds V) : Text → V → Except Err (Conds V) := c.dateFormat ">=%s"

/-- `DE`. -/
def Conds.de (c : Conds V) : Text → V → Except Err (Conds V) := c.dateFormat "=%s"

/-- `__le__`. -/
def Conds.le (c : Conds V) : V → Except Err (Conds V) := c.column "<=%s"

/-- `__lt__`. -/
def Conds.lt (c : Conds V) : V → Except Err (Conds V) := c.column "<%s"

/-- `__gt__`. -/
def Conds.gt (c : Conds V) : V → Except Err (Conds V) := c.column ">%s"

/-- `__ge__`. -/
def Conds.ge (c : Conds V) : V → Except Err (Conds V) := c.column ">=%s"

/-- `In`. -/
def Conds.isIn (c : Conds V) : List Text → Except Err (Conds V) := c.within " in ("

/-- `Not_In`. -/
def Conds.notIn (c : Conds V) : List Text → Except Err (Conds V) := c.within " not in ("

/-- A comparison and its arguments. -/
inductive Cmp (V : Type*) where
  | sub (value : V)
  | add (value : V)
  | ne (value : V)
  | eq (value : V)
  | like (value : V)
  | dl (format : Text) (value : V)
  | dg (format : Text) (value : V)
  | de (format : Text) (value : V)
  | le (value : V)
  | lt (value : V)
  | gt (value : V)
  | ge (value : V)
  | isIn (array : List Text)
  | notIn (array : List Text)

/-! ## Operators -/

/-- How a method is called: by its operator, or by its name as in `c.__and__(d)`. -/
inductive Call where
  | operator
  | name

/-- The call of the method of `&`, `|`, `-` or `+`: the operator looks up `__coerce__` first. -/
def Conds.binary {α : Type*} (c : Conds V) (method : Except Err α) : Call → Except Err α
  | .operator => do
    let _ : PUnit ← c.getattr "__coerce__"
    method
  | .name => method

/-- A comparison of `c`. -/
def Conds.compare (c : Conds V) (call : Call) : Cmp V → Except Err (Conds V)
  | .sub value => c.binary (c.sub value) call
  | .add value => c.binary (c.add value) call
  | .ne value => c.ne value
  | .eq value => c.eq value
  | .like value => c.like value
  | .dl format value => c.dl format value
  | .dg format value => c.dg format value
  | .de format value => c.de format value
  | .le value => c.le value
  | .lt value => c.lt value
  | .gt value => c.gt value
  | .ge value => c.ge value
  | .isIn array => c.isIn array
  | .notIn array => c.notIn array

/-- The comparison is written with `-` or `+`. -/
def Cmp.arithmetic : Cmp V → Bool
  | .sub _ => true
  | .add _ => true
  | _ => false

theorem exists_getattr {α : Type*} (c : Conds V) (funcName : String) :
    ∃ err, (c.getattr funcName : Except Err α) = .error err := by
  unfold Conds.getattr
  split
  · exact ⟨_, rfl⟩
  · exact ⟨_, rfl⟩

/-- **`&`, `|`, `-` and `+` raise an exception**, whatever the method of the operator does. -/
theorem exists_binary {α : Type*} (c : Conds V) (method : Except Err α) :
    ∃ err, c.binary method .operator = .error err := by
  obtain ⟨err, h⟩ := exists_getattr (α := PUnit) c "__coerce__"
  rw [Conds.binary, h]
  exact ⟨err, rfl⟩

theorem exists_compare (c : Conds V) {cmp : Cmp V} (h : cmp.arithmetic = true) :
    ∃ err, c.compare .operator cmp = .error err := by
  cases cmp with
  | sub value | add value => exact exists_binary c _
  | _ => cases h

theorem compare_operator (c : Conds V) {cmp : Cmp V} (h : cmp.arithmetic = false) :
    c.compare .operator cmp = c.compare .name cmp := by
  cases cmp with
  | sub value | add value => cases h
  | _ => rfl

/-! ## Expressions -/

/-- The `conds` objects. -/
abbrev Heap (V : Type*) := ℕ → Conds V

/-- `self._sub_conds.append((cond, conn)); return self`, after the check of `_has_value`. -/
def Heap.append (h : Heap V) (conn : Text) (self cond : ℕ) : Except Err (ℕ × Heap V) :=
  if (h self).hasValue then
    .ok (self, update h self { h self with subConds := (h self).subConds ++ [(cond, conn)] })
  else .error (.operational "Operation with no value")

/-- `__and__`. -/
def Heap.and (h : Heap V) (self cond : ℕ) : Except Err (ℕ × Heap V) := h.append " AND ".toList self cond

/-- `__or__`. -/
def Heap.or (h : Heap V) (self cond : ℕ) : Except Err (ℕ × Heap V) := h.append " OR ".toList self cond

/-- A comparison of the object `self`. -/
structure Atom (V : Type*) where
  self : ℕ
  cmp : Cmp V

/-- An expression is evaluated from left to right; the result is the object it returns. -/
def build (call : Call) : BoolTree (Atom V) → Heap V → Except Err (ℕ × Heap V)
  | .leaf a, h => do
    let c ← (h a.self).compare call a.cmp
    .ok (a.self, update h a.self c)
  | .node .and e f, h => do
    let (self, h) ← build call e h
    let (cond, h) ← build call f h
    (h self).binary (h.and self cond) call
  | .node .or e f, h => do
    let (self, h) ← build call e h
    let (cond, h) ← build call f h
    (h self).binary (h.or self cond) call

/-- One comparison, written with neither `-` nor `+`. -/
def Plain : BoolTree (Atom V) → Prop
  | .leaf a => a.cmp.arithmetic = false
  | .node _ _ _ => False

/-- **Operators raise an exception** in every expression but a single comparison without `-` and `+`. -/
theorem exists_build {e : BoolTree (Atom V)} (he : ¬ Plain e) (h : Heap V) :
    ∃ err, build .operator e h = .error err := by
  cases e with
  | leaf a =>
    obtain ⟨err, hc⟩ := exists_compare (h a.self) (eq_true_of_ne_false he)
    rw [build, hc]
    exact ⟨err, rfl⟩
  | node c e f =>
    cases c with
    | and | or =>
      exact exists_error_bind _ fun p => exists_error_bind _ fun q => exists_binary _ _

theorem build_operator {e : BoolTree (Atom V)} (he : Plain e) (h : Heap V) :
    build .operator e h = build .name e h := by
  cases e with
  | leaf a => rw [build, build, compare_operator _ he]
  | node c e f => cases he

/-! ## The text -/

/-- The loop of `get_sql` over `_sub_conds`. -/
def subSql (getSql : ℕ → Except Err Text) : List (ℕ × Text) → Except Err Text
  | [] => .ok []
  | (cond, conn) :: conds => do
    let text ← getSql cond
    let rest ← subSql getSql conds
    .ok (conn ++ text ++ rest)

/-- `get_sql()`, at most `fuel` calls deep. -/
def getSql (h : Heap V) : ℕ → ℕ → Except Err Text
  | 0, _ => .error .recursion
  | fuel + 1, self => do
    let rest ← subSql (getSql h fuel) (h self).subConds
    .ok ((h self).sql ++ " ".toList ++ rest)

/-! ## The parameters -/

/-- The loop of `get_params` over `_sub_conds`. -/
def subParams (getParams : ℕ → Except Err (List V)) : List (ℕ × Text) → Except Err (List V)
  | [] => .ok []
  | (cond, _) :: conds => do
    let params ← getParams cond
    let rest ← subParams getParams conds
    .ok (params ++ rest)

/-- `get_params()`, at most `fuel` calls deep. -/
def getParams (h : Heap V) : ℕ → ℕ → Except Err (List V)
  | 0, _ => .error .recursion
  | fuel + 1, self => do
    let rest ← subParams (getParams h fuel) (h self).subConds
    .ok ((h self).params ++ rest)

end Backend.Sql
