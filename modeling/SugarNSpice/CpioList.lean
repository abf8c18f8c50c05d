/-
`gen_init_cpio.c`, the list: what a worker makes of a line.

The line is cut by `strtok_r` into a type and its arguments, and the type's
handler scans the arguments with `sscanf`. Scanning is modelled conversion by
conversion, with the widths the formats have. A line is what `fgets` put into
the table: no NUL in it, and a newline at most at its end.

The file that a location leads to, with its variables expanded
(`cpio_replace_env`), is a parameter: its contents, or none if it cannot be
opened or read.
-/
import SugarNSpice.Cpio

namespace SugarNSpice.Cpio

open CLang (ascii)

/-! ## `strtok_r` -/

/-- A token and what follows its delimiter; none when only delimiters are
left. -/
def strtok (delim : Byte → Bool) (s : List Byte) : Option (List Byte × List Byte) :=
  match s.dropWhile delim with
  | [] => none
  | s => some (s.takeWhile (!delim ·), (s.dropWhile (!delim ·)).drop 1)

def isBlank (c : Byte) : Bool := c = 32 || c = 9

def isNewline (c : Byte) : Bool := c = 10

/-! ## `sscanf` -/

def isSpace (c : Byte) : Bool := c = 32 || (9 ≤ c.toNat && c.toNat ≤ 13)

def isGraph (c : Byte) : Bool := 33 ≤ c.toNat && c.toNat ≤ 126

/-- White space of a format. -/
def scanSpace (s : List Byte) : List Byte := s.dropWhile isSpace

def pathMax : Nat := 4096

/-- `%4096s`. -/
def scanStr (s : List Byte) : Option (List Byte × List Byte) :=
  let word := ((scanSpace s).takeWhile (!isSpace ·)).take pathMax
  if word = [] then none else some (word, (scanSpace s).drop word.length)

/-- The value of a digit, if the base has it. -/
def digit (base : Nat) (c : Byte) : Option Nat :=
  if 48 ≤ c.toNat ∧ c.toNat < 48 + base then some (c.toNat - 48) else none

/-- An optional sign: whether it is a minus, and what follows it. -/
def scanSign : List Byte → Bool × List Byte
  | c :: s => if c = 45 then (true, s) else if c = 43 then (false, s) else (false, c :: s)
  | [] => (false, [])

/-- Digits as `strtol` and `strtoul` read them: whether there is a minus, the
number, and what follows. -/
def scanDigits (base : Nat) (s : List Byte) : Option (Bool × Nat × List Byte) :=
  let (neg, s) := scanSign (scanSpace s)
  let ds := s.takeWhile fun c => (digit base c).isSome
  if ds = [] then none
  else some (neg, ds.foldl (fun n c => n * base + (digit base c).getD 0) 0, s.drop ds.length)

/-- `%o` and `%u`: `strtoul`, which stops at its largest value, cut to an
`unsigned int`. -/
def scanUnsigned (base : Nat) (s : List Byte) : Option (BitVec 32 × List Byte) := do
  let (neg, n, s) ← scanDigits base s
  let v := if 2 ^ 64 ≤ n then 2 ^ 64 - 1 else n
  some (if neg ∧ n < 2 ^ 64 then -(BitVec.ofNat 32 v) else BitVec.ofNat 32 v, s)

/-- `%d`: `strtol`, which stops at its bounds, cut to an `int`. -/
def scanInt (s : List Byte) : Option (BitVec 32 × List Byte) := do
  let (neg, n, s) ← scanDigits 10 s
  let v : Int := if neg then max (-n) (-2 ^ 63) else min n (2 ^ 63 - 1)
  some (BitVec.ofInt 32 v, s)

/-- ` %c`. -/
def scanChar (s : List Byte) : Option (Byte × List Byte) :=
  match scanSpace s with
  | c :: s => some (c, s)
  | [] => none

/-! ## Handlers -/

/-- The file at a location. -/
abbrev Files := List Byte → Option Source

/-- The end all handlers share: mode, owner and group. -/
def scanOwner (s : List Byte) : Option (BitVec 32 × BitVec 32 × BitVec 32 × List Byte) := do
  let (mode, s) ← scanUnsigned 8 s
  let (uid, s) ← scanInt s
  let (gid, s) ← scanInt s
  some (mode, uid, gid, s)

def cpioMkslinkLine (line : List Byte) : Option Entry := do
  let (name, s) ← scanStr line
  let (target, s) ← scanStr s
  let (mode, uid, gid, _) ← scanOwner s
  some (.slink name target mode uid gid)

/-- `cpio_mkgeneric_line`, with the type's mode. -/
def cpioMkgenericLine (gt : BitVec 32) (line : List Byte) : Option Entry := do
  let (name, s) ← scanStr line
  let (mode, uid, gid, _) ← scanOwner s
  some (.generic name (mode ||| gt) uid gid)

def cpioMkdirLine : List Byte → Option Entry := cpioMkgenericLine 0x4000

def cpioMkpipeLine : List Byte → Option Entry := cpioMkgenericLine 0x1000

def cpioMksockLine : List Byte → Option Entry := cpioMkgenericLine 0xC000

def cpioMknodLine (line : List Byte) : Option Entry := do
  let (name, s) ← scanStr line
  let (mode, uid, gid, s) ← scanOwner s
  let (devType, s) ← scanChar s
  let (maj, s) ← scanUnsigned 10 s
  let (min, _) ← scanUnsigned 10 s
  some (.nod name mode uid gid devType maj min)

/-- The hard links after a file's owner: names, as long as one starts with a
character that `isgraph` knows. -/
def scanLinks : Nat → List Byte → List (List Byte)
  | 0, _ => []
  | fuel + 1, s =>
    if (s.head?.map isGraph).getD false then
      match scanStr s with
      | some (name, s) => name :: scanLinks fuel (scanSpace s)
      | none => []
    else []

def cpioMkfileLine (files : Files) (line : List Byte) : Option Entry := do
  let (name, s) ← scanStr line
  let (location, s) ← scanStr s
  let (mode, uid, gid, s) ← scanOwner s
  let src ← files location
  some (.file src (name :: scanLinks s.length (scanSpace s)) mode uid gid)

def fileHandlerTable (files : Files) : List (List Byte × (List Byte → Option Entry)) :=
  [(ascii ['f', 'i', 'l', 'e'], cpioMkfileLine files), (ascii ['n', 'o', 'd'], cpioMknodLine),
    (ascii ['d', 'i', 'r'], cpioMkdirLine), (ascii ['s', 'l', 'i', 'n', 'k'], cpioMkslinkLine),
    (ascii ['p', 'i', 'p', 'e'], cpioMkpipeLine), (ascii ['s', 'o', 'c', 'k'], cpioMksockLine)]

/-! ## Lines -/

/-- What a worker does with a line of its own. -/
inductive Action where
  /-- A comment, a blank line, or one word. -/
  | skip
  /-- No type: the worker leaves its loop. -/
  | stop
  /-- No arguments: a null pointer goes to the handler, if there is one. -/
  | noArgs (known : Bool)
  /-- The handler returned an error, and has written nothing. -/
  | fail
  /-- No handler: a message only. -/
  | unknown
  /-- The handler writes the entry's records. -/
  | emit (e : Entry)

/-- The lookup, which compares the line as cut by `strtok_r`: blanks before the
type are part of it. -/
def handler (files : Files) (line type : List Byte) : Option (List Byte → Option Entry) :=
  (fileHandlerTable files).lookup (line.takeWhile isBlank ++ type)

/-- The body of the worker's loop, for a line of its own. -/
def action (files : Files) (line : List Byte) : Action :=
  if line.head? = some 35 then .skip
  else
    match strtok isBlank line with
    | none => .stop
    | some (type, rest) =>
      if type.head? = some 10 then .skip
      else if line.length = type.length then .skip
      else
        match strtok isNewline rest, handler files line type with
        | none, h => .noArgs h.isSome
        | some _, none => .unknown
        | some (args, _), some h =>
          match h args with
          | some e => .emit e
          | none => .fail

end SugarNSpice.Cpio
