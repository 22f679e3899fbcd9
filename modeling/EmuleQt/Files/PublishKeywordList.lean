import EmuleQt.Framework.Run
import EmuleQt.Framework.IndexedList
import EmuleQt.Utils.QtString

namespace EmuleQt.Files

open Framework Utils

/-- `MIN2S(30)` -/
def kLongAgo : Int := 30*60

def kMaxFilesPerPublish : Nat := 150

/-- The word with its files in the order of publishing, and the same files as a set. -/
structure PublishKeyword (φ : Type) where
  keyword : QString
  files : List φ
  fileSet : List φ
  nextPublishTime : Int

namespace PublishKeyword

variable {φ : Type}

def init (keyword : QString) : PublishKeyword φ := ⟨keyword, [], [], 0⟩

def refCount (kw : PublishKeyword φ) : Nat := kw.files.length

def publishUnits (refs : Nat) : Int :=
  ((refs + kMaxFilesPerPublish - 1) / kMaxFilesPerPublish : Nat)

def units (kw : PublishKeyword φ) : Int := publishUnits kw.refCount

def removeAllReferences (kw : PublishKeyword φ) : PublishKeyword φ :=
  { kw with files := [], fileSet := [] }

def rotateReferences (count : Int) (kw : PublishKeyword φ) : PublishKeyword φ :=
  if count ≤ 0 ∨ kw.files.length ≤ 1 then kw
  else
    let n := min count.toNat kw.files.length
    { kw with files := kw.files.drop n ++ kw.files.take n }

def setNextPublishTime (t : Int) (kw : PublishKeyword φ) : PublishKeyword φ :=
  { kw with nextPublishTime := t }

variable [DecidableEq φ]

def addRef (file : φ) (kw : PublishKeyword φ) : Bool × PublishKeyword φ :=
  if file ∈ kw.fileSet then (false, kw)
  else (true, { kw with fileSet := file :: kw.fileSet, files := kw.files ++ [file] })

def removeRef (file : φ) (kw : PublishKeyword φ) : PublishKeyword φ :=
  if file ∈ kw.fileSet then
    { kw with fileSet := kw.fileSet.erase file, files := kw.files.erase file }
  else kw

end PublishKeyword

/-- The keywords with their index and the round-robin iterator, the words each file is registered
under, when to publish next, and the work of 24 hours. -/
structure PublishKeywordList (φ : Type) where
  keywords : IndexedList (PublishKeyword φ) QString
  wordsOf : List (φ × List QString)
  nextPublishTime : Int
  publishUnits : Int

namespace PublishKeywordList

variable {φ : Type}

def init : PublishKeywordList φ := ⟨.empty, [], 0, 0⟩

def removeAllKeywordReferences (l : PublishKeywordList φ) : PublishKeywordList φ :=
  { l with
    keywords := l.keywords.mapAll PublishKeyword.removeAllReferences
    wordsOf := []
    publishUnits := 0 }

def removeAllKeywords (l : PublishKeywordList φ) : PublishKeywordList φ :=
  { l with keywords := l.keywords.clear, wordsOf := [], publishUnits := 0 }

def resetNextKeyword (l : PublishKeywordList φ) : PublishKeywordList φ :=
  { l with keywords := l.keywords.rewind }

def getNextKeyword (l : PublishKeywordList φ) : Option (PublishKeywordList φ) :=
  if l.keywords.nodes.isEmpty then some l
  else match l.keywords.cursor with
    | none => some l
    | some p => (l.keywords.deref p).map fun _ =>
      { l with keywords := { l.keywords with cursor := l.keywords.after p } }

/-- The looks of `nextDueKeyword`, with the addresses they come by; `due` may set the time. -/
def lookOn (due : PublishKeyword φ → Bool × Int) : Nat → PublishKeywordList φ →
    Option (PublishKeywordList φ × List Nat × Option Nat)
  | 0, l => some (l, [], none)
  | looks+1, l =>
    l.keywords.stand.bind fun p => (l.keywords.deref p).bind fun kw =>
      let l := { l with keywords :=
        (l.keywords.modify p (PublishKeyword.setNextPublishTime (due kw).2)).advance }
      if (due kw).1 then some (l, [p], some p)
      else (lookOn due looks l).map fun r => (r.1, p::r.2.1, r.2.2)

/-- The first keyword from the cursor that `due` says yes to. -/
def nextDueKeyword (maxLook : Int) (due : PublishKeyword φ → Bool × Int)
    (l : PublishKeywordList φ) : Option (PublishKeywordList φ × List Nat × Option Nat) :=
  lookOn due (min maxLook l.keywords.nodes.length).toNat l

def publishDueKeyword (maxLook : Int) (due : PublishKeyword φ → Bool × Int)
    (published : Option (Int × Int)) (l : PublishKeywordList φ) :
    Option (PublishKeywordList φ × List Nat) :=
  (nextDueKeyword maxLook due l).bind fun r =>
    match r.2.2, published with
    | some p, some (looked, time) => (r.1.keywords.deref p).map fun _ =>
      let rotated (kw : PublishKeyword φ) :=
        (kw.rotateReferences looked).setNextPublishTime time
      ({ r.1 with keywords := r.1.keywords.modify p rotated }, r.2.1)
    | _, _ => some (r.1, r.2.1)

/-- Looks in a row, with the addresses they come by. -/
def publishInTurn : PublishKeywordList φ →
    List (Int × (PublishKeyword φ → Bool × Int) × Option (Int × Int)) →
    Option (PublishKeywordList φ × List Nat)
  | l, [] => some (l, [])
  | l, (maxLook, due, published)::probes =>
    (publishDueKeyword maxLook due published l).bind fun r =>
      (publishInTurn r.1 probes).map fun r' => (r'.1, r.2++r'.2)

variable (toLower : QString → QString)

/-- What the index knows a keyword by. -/
def lowerOf (kw : PublishKeyword φ) : QString := toLower kw.keyword

def dropKeyword (it : Nat) (kw : PublishKeyword φ) (l : PublishKeywordList φ) :
    PublishKeywordList φ :=
  { l with
    keywords := l.keywords.erase it (lowerOf toLower kw)
    publishUnits := l.publishUnits-kw.units
    nextPublishTime := 0 }

def eraseKeyword (it : Nat) (l : PublishKeywordList φ) : Option (PublishKeywordList φ) :=
  (l.keywords.deref it).map fun kw => dropKeyword toLower it kw l

/-- The keyword at an iterator goes if it has no files. -/
def purgeAt (l : PublishKeywordList φ) (it : Nat) : Option (PublishKeywordList φ) :=
  (l.keywords.deref it).bind fun kw =>
    if kw.refCount=0 then eraseKeyword toLower it l else some l

def purgeUnreferencedKeywords (l : PublishKeywordList φ) : Option (PublishKeywordList φ) :=
  l.keywords.addresses.foldlM (purgeAt toLower) l

variable [DecidableEq φ]

/-- The new reference of a keyword; a published one that gains a file is due on the next lap. -/
def reference (file : φ) (kw : PublishKeyword φ) : PublishKeyword φ :=
  let (added, kw) := kw.addRef file
  if added ∧ kLongAgo < kw.nextPublishTime then kw.setNextPublishTime kLongAgo else kw

def registerWord (file : φ) (lower : QString) (wordsOf : List (φ × List QString)) :
    List (φ × List QString) :=
  upsert Prod.fst file (fun o =>
    let registered := o.elim [] Prod.snd
    (file, if lower∈registered then registered else registered++[lower])) wordsOf

/-- The keyword of a word is found or made. -/
def ensureKeyword (word : QString) (l : PublishKeywordList φ) : PublishKeywordList φ :=
  match l.keywords.find (toLower word) with
  | some _ => l
  | none => { l with
      keywords := l.keywords.push (lowerOf toLower) (.init word)
      nextPublishTime := 0 }

def addWord (file : φ) (l : PublishKeywordList φ) (word : QString) :
    Option (PublishKeywordList φ) :=
  let lower := toLower word
  let l := ensureKeyword toLower word l
  (l.keywords.find lower).bind fun it => (l.keywords.deref it).map fun kw =>
    { l with
      keywords := l.keywords.modify it (reference file)
      publishUnits := l.publishUnits + ((reference file kw).units - kw.units)
      wordsOf := registerWord file lower l.wordsOf }

/-- `m_wordsOf[file]` -/
def registerFile (file : φ) (wordsOf : List (φ × List QString)) : List (φ × List QString) :=
  upsert Prod.fst file (fun o => (file, o.elim [] Prod.snd)) wordsOf

/-- The words are those of the file at the time: `kadKeywords`, or those of its name. -/
def addKeywords (file : φ) (words : List QString) (l : PublishKeywordList φ) :
    Option (PublishKeywordList φ) :=
  let wasEmpty := l.keywords.nodes.isEmpty
  let l := { l with wordsOf := registerFile file l.wordsOf }
  (words.foldlM (addWord toLower file) l).map fun l =>
    if wasEmpty ∧ ¬ l.keywords.nodes.isEmpty then { l with keywords := l.keywords.rewind } else l

def removeWord (file : φ) (l : PublishKeywordList φ) (lower : QString) :
    Option (PublishKeywordList φ) :=
  match l.keywords.find lower with
  | none => some l
  | some it => (l.keywords.deref it).bind fun kw =>
    let removed := kw.removeRef file
    let l : PublishKeywordList φ := { l with
      keywords := l.keywords.modify it (PublishKeyword.removeRef file)
      publishUnits := l.publishUnits+(removed.units-kw.units) }
    if removed.refCount=0 then eraseKeyword toLower it l else some l

def removeKeywords (file : φ) (l : PublishKeywordList φ) : Option (PublishKeywordList φ) :=
  match lookupKey Prod.fst file l.wordsOf with
  | none => some l
  | some registered => (registered.2.foldlM (removeWord toLower file) l).map fun l =>
    { l with wordsOf := l.wordsOf.filter fun e => decide (e.1 ≠ file) }

inductive KeywordCall (φ : Type)
  | addKeywords (file : φ) (words : List QString)
  | removeKeywords (file : φ)
  | removeAllKeywordReferences
  | purgeUnreferencedKeywords
  | removeAllKeywords
  | getNextKeyword
  | resetNextKeyword
  | publishDueKeyword (maxLook : Int) (due : PublishKeyword φ → Bool × Int)
      (published : Option (Int × Int))

def step (l : PublishKeywordList φ) : KeywordCall φ → Option (PublishKeywordList φ)
  | .addKeywords file words => addKeywords toLower file words l
  | .removeKeywords file => removeKeywords toLower file l
  | .removeAllKeywordReferences => some l.removeAllKeywordReferences
  | .purgeUnreferencedKeywords => purgeUnreferencedKeywords toLower l
  | .removeAllKeywords => some l.removeAllKeywords
  | .getNextKeyword => l.getNextKeyword
  | .resetNextKeyword => some l.resetNextKeyword
  | .publishDueKeyword maxLook due published =>
    (publishDueKeyword maxLook due published l).map Prod.fst

/-- The words each file is registered under. -/
def register (r : φ → QString → Prop) : KeywordCall φ → φ → QString → Prop
  | .addKeywords file words => fun f w => r f w ∨ (f = file ∧ ∃ word ∈ words, toLower word = w)
  | .removeKeywords file => fun f w => r f w ∧ f ≠ file
  | .removeAllKeywordReferences => fun _ _ => False
  | .removeAllKeywords => fun _ _ => False
  | _ => r

/-- Whether a purge has followed when all references were dropped. -/
def purged (b : Bool) : KeywordCall φ → Bool
  | .removeAllKeywordReferences => false
  | .purgeUnreferencedKeywords => true
  | .removeAllKeywords => true
  | _ => b

end PublishKeywordList

end EmuleQt.Files
