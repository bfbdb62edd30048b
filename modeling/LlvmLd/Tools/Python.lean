/-! The part of Python that the repository's tools rest on: values read from JSON and exceptions. -/

namespace LlvmLd.Tools

/-- A `str` as its code points; lone surrogates are possible. -/
abbrev Str := List Nat

def str (s : String) : Str := s.toList.map Char.toNat

inductive PyError where
  | osError | valueError | keyError | typeError | attributeError
  | systemExit | calledProcessError
  -- one that no handler of the tools names, such as `RecursionError`
  | other
  deriving DecidableEq, Repr

/-- What `json.loads` returns. Of a float only its truth value is looked at. -/
inductive PyValue where
  | none
  | bool (b : Bool)
  | int (n : Int)
  | float (zero : Bool)
  | str (s : Str)
  | list (l : List PyValue)
  | dict (d : List (Str × PyValue))

namespace PyValue

def truthy : PyValue → Bool
  | .none => false
  | .bool b => b
  | .int n => n != 0
  | .float zero => !zero
  | .str s => !s.isEmpty
  | .list l => !l.isEmpty
  | .dict d => !d.isEmpty

/-- `v[key]` with a string key. -/
def getItem (v : PyValue) (key : Str) : Except PyError PyValue :=
  match v with
  | .dict d =>
    match d.lookup key with
    | .some item => .ok item
    | .none => .error .keyError
  | _ => .error .typeError

/-- What `for x in v` goes over. -/
def iter : PyValue → Except PyError (List PyValue)
  | .list l => .ok l
  | .dict d => .ok (d.map (fun item => .str item.1))
  | .str s => .ok (s.map (fun c => .str [c]))
  | _ => .error .typeError

end PyValue

/-- `path.split("/")`. -/
def splitSlash (path : Str) : List Str := path.splitOn 47

end LlvmLd.Tools
