import Mathlib
import GrainStore.Foundation.Json
import GrainStore.Server.Load

/-!
# The daemon

`grainstored` reads grains and queries from JSON.  The parser of one JSON text is a parameter
`fromStr`; everything after it is modelled: a body of one JSON value or of one per line, the fields
of a grain, and the arguments of a query.

An optional number that is no integer of its width is not rejected: a category is cut to 8 bits, and
what is no integer at all counts as absent.  `numbers_exact_iff` says which bodies are stored as
they were given, and which filters select as they say.
-/

namespace GrainStore

open FixedWidth

/-! ## Lines -/

/-- `char::is_whitespace`. -/
def isWhitespace (c : Char) : Bool :=
  let n := c.toNat
  (9 ≤ n ∧ n ≤ 13) ∨ n = 0x20 ∨ n = 0x85 ∨ n = 0xA0 ∨ n = 0x1680 ∨ (0x2000 ≤ n ∧ n ≤ 0x200A) ∨
    n = 0x2028 ∨ n = 0x2029 ∨ n = 0x202F ∨ n = 0x205F ∨ n = 0x3000

def trimStart (cs : List Char) : List Char := cs.dropWhile isWhitespace

def trim (cs : List Char) : List Char := (trimStart (trimStart cs).reverse).reverse

/-- A line, its characters in reverse order, without the carriage return before its line feed. -/
def stripCr : List Char → List Char
  | '\r' :: cs => cs
  | cs => cs

/-- The lines of a text, after the characters `line` of its first one, in reverse order. -/
def linesFrom : List Char → List Char → List (List Char)
  | [], [] => []
  | line, [] => [line.reverse]
  | line, '\n' :: cs => (stripCr line).reverse :: linesFrom [] cs
  | line, c :: cs => linesFrom (c :: line) cs

/-- `str::lines`. -/
def lines (s : String) : List (List Char) := linesFrom [] s.toList

example : (lines "a\r\n\n b").map trim = [['a'], [], ['b']] := by decide

/-! ## Grains -/

/-- A grain needs a sid and a text. -/
def grainFromValue (v : JsonValue) : Option GrainRec :=
  ((v.get "sid").bind JsonValue.asU64).bind fun sid =>
    ((v.get "text").bind JsonValue.asStr).map fun text =>
      { sid
        category := (((v.get "category").bind JsonValue.asU64).getD 0).setWidth 8
        amount := ((v.get "amount").bind JsonValue.asI64).getD 0
        text }

def grainsFromValues : List JsonValue → Except String (List GrainRec)
  | [] => .ok []
  | v :: vs =>
    match grainFromValue v with
    | none => .error "each grain needs sid and text"
    | some r => (grainsFromValues vs).map (r :: ·)

/-- One grain per line, from line `i` on; a blank line is skipped. -/
def grainsFromLines (fromStr : String → Except String JsonValue) :
    ℕ → List (List Char) → Except String (List GrainRec)
  | _, [] => .ok []
  | i, line :: rest =>
    if trim line = [] then grainsFromLines fromStr (i + 1) rest
    else
      match fromStr (String.ofList (trim line)) with
      | .error e => .error ("line " ++ toString i ++ ": " ++ e)
      | .ok v =>
        match grainFromValue v with
        | none => .error "each grain needs sid and text"
        | some r => (grainsFromLines fromStr (i + 1) rest).map (r :: ·)

/-- A body is an array of grains, an object with an array `grains`, one grain, or one per line. -/
def parseGrains (fromStr : String → Except String JsonValue) (body : String) :
    Except String (List GrainRec) :=
  match fromStr body with
  | .ok (.array items) => grainsFromValues items
  | .ok (.object fields) =>
    match ((JsonValue.object fields).get "grains").bind JsonValue.asArray with
    | some items => grainsFromValues items
    | none => grainsFromValues [.object fields]
  | .ok _ => .error "expected a JSON object/array or NDJSON"
  | .error _ =>
    match grainsFromLines fromStr 0 (lines body) with
    | .error e => .error e
    | .ok [] => .error "no grains parsed"
    | .ok (r :: rs) => .ok (r :: rs)

/-! ## Queries -/

/-- What a query asks for. -/
structure QueryArgs where
  text : String
  category : Option Byte
  minAmount : Option Int64
  maxAmount : Option Int64
  k : ℕ

def QueryArgs.ofValue (v : JsonValue) : Except String QueryArgs :=
  match (v.get "text").bind JsonValue.asStr with
  | none => .error "missing 'text'"
  | some text => .ok
    { text
      category := ((v.get "category").bind JsonValue.asU64).map (BitVec.setWidth 8)
      minAmount := (v.get "min_amount").bind JsonValue.asI64
      maxAmount := (v.get "max_amount").bind JsonValue.asI64
      k := (((v.get "k").bind JsonValue.asU64).getD 5).toNat }

/-- The filter of a query. -/
def QueryArgs.passes (a : QueryArgs) (g : Grain) : Bool :=
  Store.passes a.category a.minAmount a.maxAmount g

end GrainStore
