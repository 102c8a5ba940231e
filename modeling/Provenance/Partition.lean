import Provenance.Text.Numeral

/-!
# Partitions

A partition is a topic, an index and a kind. It is written `topic:index` when it holds objects under
a chain of trust and `topic:index:log` when it holds plain records. The index is always a numeral, so
reading from the right finds the three parts again even when the topic has colons of its own.
-/

namespace Provenance

inductive PartitionKind
  | data
  | log
  deriving DecidableEq, Repr

def PartitionKind.rank : PartitionKind → Nat
  | .data => 0
  | .log => 1

structure PartitionKey where
  topic : String
  index : UInt32
  kind : PartitionKind
  deriving DecidableEq

namespace PartitionKey

/-! ## Text -/

def kindMark : List Char := [':', 'l', 'o', 'g']

def textChars (p : PartitionKey) : List Char :=
  p.topic.toList ++ ':' :: Numeral.digitsOf p.index.toNat ++
    match p.kind with
    | .data => []
    | .log => kindMark

def text (p : PartitionKey) : String := String.ofList p.textChars

/-- What stands before the last four characters, if these mark a log partition; and the kind. -/
def splitKind (cs : List Char) : List Char × PartitionKind :=
  let size := cs.length - kindMark.length
  if kindMark.length ≤ cs.length ∧ cs.drop size = kindMark then (cs.take size, .log) else (cs, .data)

/-- The parts before and after the last colon. -/
def splitIndex? : List Char → Option (List Char × List Char)
  | [] => none
  | c :: cs =>
    match splitIndex? cs with
    | some (topic, index) => some (c :: topic, index)
    | none => if c = ':' then some ([], cs) else none

def ofChars? (cs : List Char) : Option PartitionKey := do
  let (rest, kind) := splitKind cs
  let (topic, numeral) ← splitIndex? rest
  let index ← Numeral.decode? numeral
  if index < UInt32.size ∧ topic ≠ [] then some ⟨String.ofList topic, UInt32.ofNat index, kind⟩ else none

def ofText? (s : String) : Option PartitionKey := ofChars? s.toList

/-! ## Order -/

/-- By topic, then by index, then by kind. -/
def compare (p q : PartitionKey) : Ordering :=
  (compareOfLessAndEq p.topic q.topic).then
    ((compareOfLessAndEq p.index q.index).then (Ord.compare p.kind.rank q.kind.rank))

end PartitionKey

end Provenance
