import Mathlib.Data.List.DropRight
import Mathlib.Data.Int.Notation
import Mathlib.Data.Nat.Notation

/-!
# The configuration files (`thirdparty/treeconf/config.c`, `tstring.h`)

* `isWhitespace`, `rtrim`, `trim`: the functions on strings; `fgetsAll`: what `fgets` gives, line by line;
* `Node`, `Ref`, `Mem`: the memory. The entries of a node are an array that `realloc` may move to another place; a pointer
  to an entry is the array with the number of the entry, and an array that was moved or freed can no longer be read;
* `addNode`, `climb`, `line`, `cfgLoadFile`: loading a file;
* `findChild`, `cfgGet`, `cfgGetstr`, `cfgGetnum`: looking settings up; `cfgPrint`, `cfgFree`: writing and freeing.

`none` as a result is an access to memory that is not there. A string is the list of its bytes in front of the terminator.
Allocations succeed.
-/

set_option autoImplicit false

namespace Backend.Conf

/-- A string. -/
abbrev Str := List UInt8

/-- A character. -/
def chr (c : Char) : UInt8 := UInt8.ofNat c.toNat

/-- A string constant. -/
def str (s : String) : Str := s.toList.map chr

/-! ## Strings -/

/-- `strchr(s, ch) != NULL`; the terminator is found as well. -/
def strchr (s : Str) (ch : UInt8) : Bool := (s ++ [0]).contains ch

/-- `is_whitespace`. -/
def isWhitespace (ch : UInt8) : Bool := strchr [chr ' ', chr '\t', chr '\r', chr '\n'] ch

/-- `is_kv_seperator`. -/
def isKvSeperator (ch : UInt8) : Bool := strchr [chr ':', chr '='] ch

/-- `is_empty_str`. -/
def isEmptyStr (s : Str) : Bool := (s.dropWhile isWhitespace).isEmpty

/-- `ltrim`. -/
def ltrim (s : Str) : Str := s.dropWhile isWhitespace

/-- `rtrim`. -/
def rtrim (s : Str) : Str := s.rdropWhile isWhitespace

/-- `trim`. -/
def trim (s : Str) : Str := rtrim (ltrim s)

/-- `CONFIG_MAX_LINE`. -/
def maxLine : ℕ := 1024

/-- The calls `fgets(buf, sizeof(buf), fp)` until the end of the file, with the characters that the current one has read and
how many more it takes. -/
def fgetsAll : Str → ℕ → Str → List Str
  | cur, _, [] => if cur.isEmpty then [] else [cur]
  | cur, room, c :: s =>
    if c = chr '\n' ∨ room ≤ 1 then (cur ++ [c]) :: fgetsAll [] (maxLine + 2) s else fgetsAll (cur ++ [c]) (room - 1) s

/-- The contents of `buf` after each call, as strings. -/
def bufs (file : Str) : List Str := (fgetsAll [] (maxLine + 2) file).map (List.takeWhile (· ≠ 0))

/-! ## Memory -/

/-- A pointer to a node: the root, or an entry of an array. -/
inductive Ref
  | root
  | item (block i : ℕ)
  deriving DecidableEq

/-- `struct config`; `items` is the number of the array, or `none` for `NULL`. -/
structure Node where
  size : ℕ
  count : ℕ
  key : Str
  val : Str
  parent : Option Ref
  items : Option ℕ
  deriving DecidableEq

/-- The memory: the root, and the arrays that were allocated so far, `none` where they were freed. An entry of an array is
`none` before something is written to it. -/
structure Mem where
  root : Option Node
  blocks : List (Option (List (Option Node)))
  deriving DecidableEq

/-- The array with a number. -/
def Mem.block (m : Mem) (b : ℕ) : Option (List (Option Node)) := (m.blocks[b]?).join

/-- Another content for an array. -/
def Mem.setBlock (m : Mem) (b : ℕ) (cells : Option (List (Option Node))) : Mem := { m with blocks := m.blocks.set b cells }

/-- Reading a node. -/
def Mem.get (m : Mem) : Ref → Option Node
  | .root => m.root
  | .item b i => (m.block b).bind fun cells => (cells[i]?).join

/-- Writing a node. -/
def Mem.set (m : Mem) (ref : Ref) (n : Node) : Option Mem :=
  match ref with
  | .root => m.root.map fun _ => { m with root := some n }
  | .item b i => (m.block b).bind fun cells => if i < cells.length then some (m.setBlock b (cells.set i (some n))) else none

/-- `realloc`; `moves` says that the array goes to another place. -/
def realloc (moves : Bool) (m : Mem) (items : Option ℕ) (size : ℕ) : Option (Mem × ℕ) :=
  match items with
  | none => some ({ m with blocks := m.blocks ++ [some (List.replicate size none)] }, m.blocks.length)
  | some b => (m.block b).map fun cells =>
    let cells := cells.take size ++ List.replicate (size - cells.length) none
    if moves then ({ m with blocks := m.blocks.set b none ++ [some cells] }, m.blocks.length)
    else (m.setBlock b (some cells), b)

/-- `free`. -/
def Mem.free (m : Mem) (b : ℕ) : Option Mem := (m.block b).map fun _ => m.setBlock b none

/-! ## Loading -/

/-- What is logged when a file is refused, with the number of the line. -/
inductive Err
  | tooLong (lineno len : ℕ)
  | indent (lineno : ℕ)
  | whitespace (lineno : ℕ) (ch : UInt8)
  | separator (lineno : ℕ) (key : Str)
  | unexpected (lineno : ℕ) (ch : UInt8)
  | duplicated (lineno : ℕ) (key : Str)
  deriving DecidableEq

/-- The number of the line. -/
def Err.lineno : Err → ℕ
  | tooLong lineno _ | indent lineno | whitespace lineno _ | separator lineno _ | unexpected lineno _
  | duplicated lineno _ => lineno

/-- `%d`. -/
def dec (n : ℕ) : Str := str (toString n)

/-- The text. -/
def Err.text : Err → Str
  | tooLong lineno len => str "line(" ++ dec lineno ++ str ") too long: " ++ dec len ++ str ", should be no more than " ++
      dec maxLine ++ str " characters"
  | indent lineno => str "invalid indent line(" ++ dec lineno ++ str ")"
  | whitespace lineno ch => str "invalid line(" ++ dec lineno ++ str "): unexpected whitespace char '" ++ [ch] ++ str "'"
  | separator lineno key => str "invalid line(" ++ dec lineno ++ str "): " ++ key ++ str ", expecting ':' or '='"
  | unexpected lineno ch => str "invalid line(" ++ dec lineno ++ str "): unexpected char '" ++ [ch] ++
      str "', expecting ':' or '='"
  | duplicated lineno key => str "line: " ++ dec lineno ++ str ", duplicated '" ++ key ++ str "'"

/-- The loop of `cfg_find_child` over the next `k` entries of the array `b`. -/
def findFrom (m : Mem) (b : ℕ) (key : Str) : ℕ → ℕ → Option (Option Ref)
  | 0, _ => some none
  | k + 1, i => (m.get (.item b i)).bind fun c =>
    if key = c.key then some (some (.item b i)) else findFrom m b key k (i + 1)

/-- `cfg_find_child`. -/
def findChild (m : Mem) (cfg : Ref) (key : Str) : Option (Option Ref) :=
  (m.get cfg).bind fun c =>
    match c.items with
    | none => if c.count = 0 then some none else none
    | some b => findFrom m b key c.count 0

/-- The part of `add_node` that makes room in the array. -/
def grow (moves : Bool) (m : Mem) (parent : Ref) : Option Mem :=
  (m.get parent).bind fun p =>
    if p.size = p.count then
      let size := p.size * 2 + 5
      (realloc moves m p.items size).bind fun r => r.1.set parent { p with items := some r.2, size := size }
    else some m

/-- The part of `add_node` that writes the new entry. -/
def push (m : Mem) (parent : Ref) (key val : Str) : Option (Mem × Ref) :=
  (m.get parent).bind fun p => p.items.bind fun b =>
    (m.set parent { p with count := p.count + 1 }).bind fun m =>
      (m.set (.item b p.count)
        { size := 0, count := 0, key := key, val := val, parent := some parent, items := none }).map fun m =>
          (m, .item b p.count)

/-- `add_node`. -/
def addNode (moves : Bool) (m : Mem) (parent : Ref) (key val : Str) (lineno : ℕ) : Option (Mem × Except Err Ref) :=
  (if key.head? ≠ some (chr '#') then findChild m parent key else some none).bind fun r =>
    if r.isSome then some (m, .error (.duplicated lineno key))
    else (grow moves m parent).bind fun m => (push m parent key val).map fun r => (r.1, .ok r.2)

/-- The key and the value in a line without its tabs. -/
def entry (lineno : ℕ) (key : Str) : Except Err (Str × Str) :=
  if key.head? = some (chr '#') then .ok ([chr '#'], key.tail)
  else if isWhitespace (key.headD 0) then .error (.whitespace lineno (key.headD 0))
  else
    match key.dropWhile fun c => !isKvSeperator c with
    | [] => .error (.separator lineno key)
    | c :: val =>
      if !isKvSeperator c then .error (.unexpected lineno c)
      else .ok (trim (key.takeWhile fun c => !isKvSeperator c), trim val)

/-- The loop `for(i = indent; i <= last_indent; i++)`. -/
def climb (m : Mem) : ℕ → Ref → Option Ref
  | 0, cfg => some cfg
  | k + 1, cfg =>
    if cfg ≠ .root then (m.get cfg).bind fun c => c.parent.bind fun cfg => climb m k cfg else climb m k cfg

/-- The variables of `cfg_load_file`. -/
structure State where
  mem : Mem
  cfg : Ref
  lastIndent : ℕ

variable (moves : ℕ → Bool)

/-- The part of the loop behind the indentation. -/
def lineTail (lineno indent : ℕ) (key : Str) (s : State) : Option (Mem × Except Err State) :=
  match entry lineno key with
  | .error e => some (s.mem, .error e)
  | .ok kv => (addNode (moves lineno) s.mem s.cfg kv.1 kv.2 lineno).map fun r =>
    (r.1, r.2.map fun cfg => { mem := r.1, cfg := cfg, lastIndent := indent })

/-- The loop of `cfg_load_file` for one line. -/
def line (lineno : ℕ) (buf : Str) (s : State) : Option (Mem × Except Err State) :=
  let buf := rtrim buf
  let len := buf.length
  if len > maxLine then some (s.mem, .error (.tooLong lineno len))
  else if isEmptyStr buf then some (s.mem, .ok s)
  else
    let indent := (buf.takeWhile (· = chr '\t')).length
    let key := buf.dropWhile (· = chr '\t')
    if indent ≤ s.lastIndent then
      (climb s.mem (s.lastIndent + 1 - indent) s.cfg).bind fun cfg => lineTail moves lineno indent key { s with cfg := cfg }
    else if indent > s.lastIndent + 1 then some (s.mem, .error (.indent lineno))
    else lineTail moves lineno indent key s

/-- The loop of `cfg_load_file`. -/
def loop : ℕ → List Str → State → Option (Mem × Except Err State)
  | _, [], s => some (s.mem, .ok s)
  | lineno, buf :: l, s => (line moves (lineno + 1) buf s).bind fun r =>
    match r.2 with
    | .error e => some (r.1, .error e)
    | .ok s => loop (lineno + 1) l s

/-- `_cfg_free`, with a bound for the depth. -/
def freeNode : ℕ → Mem → Ref → Option Mem
  | 0, _, _ => none
  | fuel + 1, m, cfg => (m.get cfg).bind fun c =>
    match c.items with
    | none => some m
    | some b => ((List.range c.count).foldlM (fun m i => freeNode fuel m (.item b i)) m).bind fun m => m.free b

/-- `cfg_free` for the root. -/
def cfgFree (m : Mem) : Option Mem :=
  (freeNode (m.blocks.length + 1) m .root).map fun m => { m with root := none }

/-- The node that `cfg_load_file` starts with. -/
def rootNode : Node := { size := 0, count := 0, key := str "root", val := [], parent := none, items := none }

/-- `cfg_load_file` for a file with this content: the memory afterwards, and what was logged if the file was refused. -/
def cfgLoadFile (file : Str) : Option (Mem × Option Err) :=
  (loop moves 0 (bufs file) { mem := { root := some rootNode, blocks := [] }, cfg := .root, lastIndent := 0 }).bind fun r =>
    match r.2 with
    | .ok _ => some (r.1, none)
    | .error e => (cfgFree r.1).map fun m => (m, some e)

/-! ## Using what was loaded -/

/-- The loop of `cfg_get`: the node, the part of the field that was read, and the rest of the path. -/
def getFrom (m : Mem) : Option Ref → Str → Str → Option (Option Ref)
  | none, _, _ => some none
  | some c, f, [] => findChild m c f
  | some c, f, ch :: path =>
    if ch = chr '.' ∨ ch = chr '/' then (findChild m c f).bind fun c => getFrom m c [] path
    else getFrom m (some c) (f ++ [ch]) path

/-- `cfg_get`; the path must fit into a buffer. -/
def cfgGet (m : Mem) (cfg : Ref) (key : Str) : Option (Option Ref) :=
  if key.length < maxLine then getFrom m (some cfg) [] key else none

/-- `cfg_getstr`. -/
def cfgGetstr (m : Mem) (cfg : Ref) (key : Str) : Option (Option Str) :=
  (cfgGet m cfg key).bind fun c =>
    match c with
    | none => some none
    | some c => (m.get c).map fun n => some n.val

/-- `isspace`. -/
def isspace (ch : UInt8) : Bool := [chr ' ', chr '\t', chr '\n', 11, 12, chr '\r'].contains ch

/-- The digits in front. -/
def digits (s : Str) : Str := s.takeWhile fun c => chr '0' ≤ c ∧ c ≤ chr '9'

/-- The value of digits. -/
def value (s : Str) : ℤ := s.foldl (fun n c => 10 * n + (c.toNat - 48 : ℕ)) 0

/-- `atoi`, where it is defined. -/
def atoi (s : Str) : Option ℤ :=
  let s := s.dropWhile isspace
  let n := if s.head? = some (chr '-') then -value (digits s.tail)
    else if s.head? = some (chr '+') then value (digits s.tail) else value (digits s)
  if -2147483648 ≤ n ∧ n ≤ 2147483647 then some n else none

/-- `cfg_getnum`. -/
def cfgGetnum (m : Mem) (cfg : Ref) (key : Str) : Option ℤ :=
  (cfgGet m cfg key).bind fun c =>
    match c with
    | none => some 0
    | some c => (m.get c).bind fun n => atoi n.val

/-- What `_cfg_print` writes for the node itself. -/
def printLine (c : Node) (indent : ℕ) : Str :=
  List.replicate indent (chr '\t') ++
    (if c.key.head? = some (chr '#') then chr '#' :: c.val ++ [chr '\n']
    else c.key ++ [chr ' ', if c.count = 0 then chr '=' else chr ':', chr ' '] ++ c.val ++ [chr '\n'])

/-- `_cfg_print`, with a bound for the depth. -/
def printNode (m : Mem) : ℕ → Ref → ℕ → Option Str
  | 0, _, _ => none
  | fuel + 1, cfg, indent => (m.get cfg).bind fun n =>
    ((List.range n.count).mapM fun i => n.items.bind fun b => (m.get (.item b i)).bind fun c =>
      if c.count > 0 then (printNode m fuel (.item b i) (indent + 1)).map fun s => printLine c indent ++ s
      else some (printLine c indent)).map List.flatten

/-- What `cfg_print` writes to the file. -/
def cfgPrint (m : Mem) : Option Str := printNode m (m.blocks.length + 1) .root 0

end Backend.Conf
