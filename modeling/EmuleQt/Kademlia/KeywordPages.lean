import EmuleQt.Kademlia.KeywordWalk

namespace EmuleQt.Kademlia

open Framework

/-- What an answer may list: nothing while the files are loaded. -/
def served (q : KeywordQuery) (s : KeywordIndex) : List (UInt128 × TrustedEntry) :=
  if s.dataLoaded then
    match lookupKey Hash.keyID q.keyID s.keywords with
    | none => []
    | some keyHash => entriesOf keyHash.sources
  else []

/-- The matching entries, those in front that are trusted at a first look. -/
def order (q : KeywordQuery) (g : Tracking) (look : Nat → UInt32)
    (ps : List (UInt128 × TrustedEntry)) : List Nat :=
  selected q g true look 0 ps ++ selected q g false look 0 ps

variable {q : KeywordQuery} {g : Tracking} {times : Set UInt32} {clock : Clock}
  {s : KeywordIndex} {ps ps' : List (UInt128 × TrustedEntry)}

theorem Looked.publishers {p p' : UInt128 × TrustedEntry} (h : Looked times g p p') :
    p'.2.publishers=p.2.publishers := by
  rw [TrustedEntry.publishers,h.entry,TrustedEntry.publishers]

end EmuleQt.Kademlia
