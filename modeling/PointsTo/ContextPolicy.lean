import PointsTo.Error
import PointsTo.Text.Numeral

/-!
# Context policies

A policy says which contexts methods and objects are told apart by: none, the last `k` call sites,
or the last `k` allocation sites of receivers.

* `ContextPolicy.text` is the spelling of a policy;
* `ContextPolicy.read?` reads exactly these spellings, for `k` from `1` to `2 ^ 64 - 1`, and
  `ContextPolicy.parse` turns every other text into an error.
-/

namespace PointsTo

/-- What contexts are made of. -/
inductive ContextPolicy where
  /-- There is only the empty context. -/
  | insensitive
  /-- Contexts hold the last `k` call sites. -/
  | callSite (k : Nat)
  /-- Contexts hold the allocation sites of the last `k` receivers. -/
  | object (k : Nat)
deriving DecidableEq, Inhabited

namespace ContextPolicy

/-- The option that chooses the policy. -/
def option : String := "PTA_CONTEXT"

/-- The spelling of a policy. -/
def text : ContextPolicy → String
  | .insensitive => "ci"
  | .callSite k => Text.decimal k ++ "-call"
  | .object k => Text.decimal k ++ "-obj"

/-- The policy with the given spelling. -/
def read? (cs : List Char) : Option ContextPolicy :=
  if cs = "ci".toList then some .insensitive
  else
    match Text.value? (cs.takeWhile Char.isDigit) with
    | none => none
    | some k =>
      if k < Nat.pow 2 64 then
        if cs.dropWhile Char.isDigit = "-call".toList then some (.callSite k)
        else if cs.dropWhile Char.isDigit = "-obj".toList then some (.object k)
        else none
      else none

/-- Reads a policy. -/
def parse (s : String) : Except Error ContextPolicy :=
  match read? s.toList with
  | some policy => .ok policy
  | none => .error (.invalidOption option s)

/-- The policy in messages. -/
def label : ContextPolicy → String
  | .insensitive => "Insensitive"
  | .callSite k => "CallSite(" ++ Text.decimal k ++ ")"
  | .object k => "Object(" ++ Text.decimal k ++ ")"

end ContextPolicy

end PointsTo
