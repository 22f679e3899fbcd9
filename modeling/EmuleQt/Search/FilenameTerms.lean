import EmuleQt.Kademlia.KeywordWalk
import EmuleQt.Protocol.ED2KLinkRoundTrip
import EmuleQt.Search.SearchExprParser

namespace EmuleQt.Search

open Kademlia Protocol Utils Utils.QString

section Words

variable (tables : CaseTables)

def kInvKadKeywordChars : QString := lit " ()[]\x7b\x7d<>,._-!?:;\\/\""
def kMinKadKeywordBytes : Nat := 3

def isDelim (u : UInt16) : Bool := u∈kInvKadKeywordChars

/-- The runs of characters between delimiters. -/
def runs (s : QString) : List QString := (s.splitOnP isDelim).filter (· ≠ [])

def addWord (outWords : List QString) (word : QString) : List QString :=
  if kMinKadKeywordBytes ≤ (toUtf8 (tables.lower word)).length ∧
      ∀ existing ∈ outWords, tables.lower existing ≠ tables.lower word then outWords ++ [word]
  else outWords

def getWords (str : QString) : List QString :=
  let outWords := (runs str).foldl (addWord tables) []
  match outWords.getLast? with
  | some last =>
    if 1 < outWords.length ∧ (toUtf8 last).length ≤ kMinKadKeywordBytes then outWords.dropLast
    else outWords
  | none => outWords

/-- The double quote. -/
def quoteChar : UInt16 := 0x22

def tokenizeOptQuotedSearchTerm : QString → List QString
  | [] => []
  | u :: s =>
    if u = quoteChar then
      if quoteChar ∈ s then
        let tok := s.takeWhile (· ≠ quoteChar)
        (if tok = [] then [] else [tok]) ++
          tokenizeOptQuotedSearchTerm (s.dropWhile (· ≠ quoteChar)).tail
      else tokenizeOptQuotedSearchTerm s
    else if isDelim u then tokenizeOptQuotedSearchTerm s
    else
      let rest := s.dropWhile (!isDelim ·)
      (u :: s.takeWhile (!isDelim ·)) ::
        if rest.head? = some quoteChar then tokenizeOptQuotedSearchTerm rest
        else tokenizeOptQuotedSearchTerm rest.tail
termination_by s => s.length
decreasing_by
  all_goals
    have h₁ := (List.dropWhile_sublist (l := s) (· ≠ quoteChar)).length_le
    have h₂ := (List.dropWhile_sublist (l := s) (!isDelim ·)).length_le
    simp only [List.length_cons, List.length_tail]
    omega

end Words

section Tree

/-- What `toBytes` writes of an attribute, without its lengths: a number is of 32 bits or 64. -/
inductive Node
  | bool (op : UInt8)
  | string (str : List UInt8)
  | metaTag (str : List UInt8) (tag : UInt8)
  | num (value : UInt64) (op : UInt8) (tag : UInt8)

def SearchAttr.node (a : SearchAttr) : Node :=
  if a.str = kSearchOpTokenAnd then .bool 0
  else if a.str = kSearchOpTokenOr then .bool 1
  else if a.str = kSearchOpTokenNot then .bool 2
  else if a.str ≠ [] then
    if a.tag = FT_FILENAME then .string a.str else .metaTag a.str a.tag
  else .num a.num a.integerOperator a.tag

/-- `calls`: the calls that are still to come, the innermost first. -/
def serializeNode : List SearchAttr → (calls : Nat) → List Node
  | [], _ => []
  | _ :: _, 0 => []
  | a :: expr, calls + 1 =>
    a.node :: serializeNode expr (if isOperatorAttr a then calls + 2 else calls)

def toNodes (expr : List SearchAttr) : List Node := serializeNode expr 1

def boolTerm (left right : SearchTerm) : UInt8 → Option SearchTerm
  | 0 => some (.and left right)
  | 1 => some (.or left right)
  | 2 => some (.not left right)
  | _ => none

def compareOp : UInt8 → Option CompareOp
  | 0 => some .equal
  | 1 => some .greater
  | 2 => some .less
  | 3 => some .greaterEqual
  | 4 => some .lessEqual
  | 5 => some .notEqual
  | _ => none

variable (tables : CaseTables)

/-- `levels`: how many are left of the 24. -/
def createSearchExpressionTree : (levels : Nat) → List Node → Option SearchTerm × List Node
  | 0, io => (none, io)
  | _ + 1, [] => (none, [])
  | levels + 1, .bool op :: io =>
    if 2 < op then (none, io)
    else
      let left := createSearchExpressionTree levels io
      let right := createSearchExpressionTree levels left.2
      (left.1.bind fun l => right.1.bind fun r => boolTerm l r op, right.2)
  | _ + 1, .string str :: io =>
    (some (.string (tokenizeOptQuotedSearchTerm (tables.lower (fromUtf8 str)))), io)
  | _ + 1, .metaTag str tag :: io => (some (.metaTag [tag] (tables.lower (fromUtf8 str))), io)
  | _ + 1, .num value op tag :: io => ((compareOp op).map fun c => .compare c [tag] value, io)

def searchTerm (expr : List SearchAttr) : Option SearchTerm :=
  (createSearchExpressionTree tables 24 (toNodes expr)).1

end Tree

section Terms

structure FilenameTerms where
  required : List QString
  optional : List QString

/-- `calls`: the calls that are still to come with the flag of each, the innermost first. Besides
the terms the walk returns what it has not reached. -/
def collectFilenameTerms : List SearchAttr → (calls : List Bool) → FilenameTerms →
    FilenameTerms × List SearchAttr
  | expr, [], terms => (terms, expr)
  | [], _ :: _, terms => (terms, [])
  | a :: expr, required :: calls, terms =>
    if a.str = kSearchOpTokenAnd then
      collectFilenameTerms expr (required :: required :: calls) terms
    else if a.str = kSearchOpTokenOr then collectFilenameTerms expr (false :: false :: calls) terms
    else if a.str = kSearchOpTokenNot then
      collectFilenameTerms expr (required :: false :: calls) terms
    else if a.tag = FT_FILENAME then
      collectFilenameTerms expr calls
        (if required then { terms with required := terms.required ++ [fromUtf8 a.str] }
        else { terms with optional := terms.optional ++ [fromUtf8 a.str] })
    else collectFilenameTerms expr calls terms

def SearchExpr.leaves : SearchExpr → List SearchAttr
  | attr a => [a]
  | combined _ result right => result.leaves ++ right.leaves

/-- `parsed.expr.m_expr`; of a blank expression there is none. -/
def attrsOf (parsed : Option SearchExpr) : List SearchAttr := parsed.elim [] SearchExpr.attrs

def leavesOf (parsed : Option SearchExpr) : List SearchAttr := parsed.elim [] SearchExpr.leaves

def walk (parsed : Option SearchExpr) : FilenameTerms × List SearchAttr :=
  collectFilenameTerms (attrsOf parsed) [true] ⟨[], []⟩

variable (env : ParserEnv) (depth : Nat)

/-- Without quotes around quoted strings. -/
def parsePlain (expression : QString) : Parse (Option SearchExpr) :=
  parseSearchExpression { env with keepQuotedStrings := false } depth expression

def filenameTerms (expression : QString) : FilenameTerms :=
  match parsePlain env depth expression with
  | .ok parsed => (walk parsed).1
  | .error _ => ⟨[], []⟩

def kadKeywordSource (expression : QString) : QString :=
  joined 0x20 (filenameTerms env depth expression).required

end Terms

section Sound

/-- Case mapping goes character by character, and a character of ASCII is one of its own. -/
structure ByCharacter (tables : CaseTables) : Prop where
  lower_nil : tables.lower []=[]
  lower_space : ∀ a b, tables.lower (a++0x20::b)=tables.lower a++0x20::tables.lower b
  fold_ascii : ∀ a u b, u.toNat<0x80 →
    tables.fold (a++u::b)=tables.fold a++(tables.fold [u]++tables.fold b)

variable {tables : CaseTables} {s w : QString} {u : UInt16}

theorem ascii_of_isDelim (h : isDelim u=true) : u.toNat<0x80 := by
  have hall : kInvKadKeywordChars.all (fun u => decide (u.toNat<0x80))=true := by
    decide +kernel
  exact of_decide_eq_true (List.all_eq_true.mp hall u (of_decide_eq_true h))

theorem isDelim_quoteChar : isDelim quoteChar=true := by decide

theorem dropWhile_cut (p : UInt16 → Bool) (s : QString) :
    s.dropWhile p=[] ∧ s.takeWhile p=s ∨
      ∃ u b, s.dropWhile p=u::b ∧ p u=false ∧ s=s.takeWhile p++u::b := by
  have hs := List.takeWhile_append_dropWhile (p := p) (l := s)
  cases hrest : s.dropWhile p with
  | nil =>
    rw [hrest,List.append_nil] at hs
    exact .inl ⟨rfl,hs⟩
  | cons u b =>
    rw [hrest] at hs
    have hhead := List.head_dropWhile_not (p := p) (l := s) (by rw [hrest]; simp)
    simp only [hrest,List.head_cons] at hhead
    exact .inr ⟨u,b,rfl,hhead,hs.symm⟩

theorem takeWhile_plain (s : QString) : ∀ u∈s.takeWhile (!isDelim ·), isDelim u=false :=
  fun u hu => by simpa using List.mem_takeWhile_imp hu

theorem cut_induction {motive : QString → Prop}
    (whole : ∀ a,(∀ u∈a,isDelim u=false) → motive a)
    (cut : ∀ a u b,(∀ u∈a,isDelim u=false) → isDelim u=true → motive b →
      motive (a++u::b)) (s : QString) : motive s := by
  induction h : s.length using Nat.strong_induction_on generalizing s with
  | _ n ih =>
    have hfront := takeWhile_plain s
    rcases dropWhile_cut (!isDelim ·) s with ⟨-,hs⟩ | ⟨u,b,-,hu,hs⟩
    · rw [hs] at hfront
      exact whole s hfront
    · have hlength := congrArg List.length hs
      rw [List.length_append,List.length_cons] at hlength
      rw [hs]
      exact cut _ u b hfront (by simpa using hu) (ih b.length (by omega) b rfl)

theorem runs_append_cons (h : isDelim u=true) (a b : QString) :
    runs (a++u::b)=runs a++runs b := by
  unfold runs
  rw [List.splitOnP_append_cons _ _ h,List.filter_append]

theorem runs_cons (h : isDelim u=true) : runs (u::s)=runs s :=
  runs_append_cons h [] s

theorem runs_whole {a : QString} (h : ∀ u∈a,isDelim u=false) :
    runs a=if a=[] then [] else [a] := by
  unfold runs
  rw [List.splitOnP_eq_singleton h]
  split_ifs with ha <;> simp [ha]

theorem fold_infix (hcase : ByCharacter tables) (h : w∈runs s) :
    tables.fold w <:+: tables.fold s := by
  induction s using cut_induction with
  | whole a ha =>
    rw [runs_whole ha] at h
    split_ifs at h with hnil
    · exact absurd h List.not_mem_nil
    · rw [List.mem_singleton.mp h]
  | cut a u b ha hu ih =>
    rw [runs_append_cons hu,runs_whole ha,List.mem_append] at h
    rw [hcase.fold_ascii a u b (ascii_of_isDelim hu)]
    rcases h with h | h
    · split_ifs at h with hnil
      · exact absurd h List.not_mem_nil
      · rw [List.mem_singleton.mp h]
        exact (List.prefix_append _ _).isInfix
    · exact (ih h).trans
        ((List.suffix_append _ _).trans (List.suffix_append _ _)).isInfix

theorem mem_tokenize_of_mem_runs (s : QString) :
    w∈runs s → ∃ tok∈tokenizeOptQuotedSearchTerm s, w∈runs tok := by
  fun_induction tokenizeOptQuotedSearchTerm s with
  | case1 => exact fun h => absurd h List.not_mem_nil
  | case2 s hclosed tok ih =>
    intro h
    have hs : s=tok++quoteChar::(s.dropWhile (· ≠ quoteChar)).tail := by
      rcases dropWhile_cut (· ≠ quoteChar) s with ⟨hnil,-⟩ | ⟨u,b,hrest,hu,hs⟩
      · have hall := List.dropWhile_eq_nil_iff.mp hnil quoteChar hclosed
        simp at hall
      · have hquote : u=quoteChar := by simpa using hu
        rw [hrest,List.tail_cons,← hquote]
        exact hs
    rw [runs_cons isDelim_quoteChar,hs,runs_append_cons isDelim_quoteChar,List.mem_append] at h
    rcases h with h | h
    · have hne : tok≠[] := fun hnil => by
        rw [hnil] at h
        exact absurd h List.not_mem_nil
      rw [if_neg hne]
      exact ⟨tok,List.mem_append_left _ (List.mem_singleton_self tok),h⟩
    · obtain ⟨t,ht,hw⟩ := ih h
      exact ⟨t,List.mem_append_right _ ht,hw⟩
  | case3 s _ ih =>
    rw [runs_cons isDelim_quoteChar]
    exact ih
  | case4 u s _ hu ih =>
    rw [runs_cons hu]
    exact ih
  | case5 u s _ hu rest ih ih' =>
    intro h
    have hfront : ∀ v∈u::s.takeWhile (!isDelim ·), isDelim v=false :=
      List.forall_mem_cons.mpr ⟨by simpa using hu,takeWhile_plain s⟩
    have hruns := runs_whole hfront
    rcases dropWhile_cut (!isDelim ·) s with ⟨-,hs⟩ | ⟨v,b,hrest,hv,hs⟩
    · rw [hs] at hruns ⊢
      exact ⟨_,List.mem_cons_self,h⟩
    · have hv : isDelim v=true := by simpa using hv
      rw [hs,← List.cons_append,runs_append_cons hv,List.mem_append] at h
      rcases h with h | h
      · exact ⟨_,List.mem_cons_self,h⟩
      · have hih : w∈runs rest → _ := ih
        rw [show rest=v::b from hrest,runs_cons hv] at hih
        have hih' : w∈runs rest.tail → _ := ih'
        rw [show rest=v::b from hrest,List.tail_cons] at hih'
        rw [show rest=v::b from hrest,List.tail_cons]
        split_ifs
        · obtain ⟨t,ht,hw⟩ := hih h
          exact ⟨t,List.mem_cons_of_mem _ ht,hw⟩
        · obtain ⟨t,ht,hw⟩ := hih' h
          exact ⟨t,List.mem_cons_of_mem _ ht,hw⟩

theorem mem_runs_of_mem_getWords (h : w∈getWords tables s) : w∈runs s := by
  have hfold : ∀ ws out : List QString, (∀ x∈out,x∈runs s) → (∀ x∈ws,x∈runs s) →
      ∀ x∈ws.foldl (addWord tables) out, x∈runs s := by
    intro ws
    induction ws with
    | nil => exact fun out hout _ => hout
    | cons word ws ih =>
      intro out hout hws
      obtain ⟨hword,hws⟩ := List.forall_mem_cons.mp hws
      refine ih _ ?_ hws
      unfold addWord
      split_ifs
      · exact List.forall_mem_append.mpr ⟨hout,List.forall_mem_singleton.mpr hword⟩
      · exact hout
  have hall := hfold (runs s) [] (fun _ hx => absurd hx List.not_mem_nil) fun _ hx => hx
  unfold getWords at h
  dsimp only at h
  split at h
  · split_ifs at h
    · exact hall w (List.mem_of_mem_dropLast h)
    · exact hall w h
  · exact hall w h

theorem runs_lower_joined (hcase : ByCharacter tables) (terms : List QString)
    (h : w∈runs (tables.lower (joined 0x20 terms))) :
    ∃ t∈terms, w∈runs (tables.lower t) := by
  unfold joined at h
  induction terms with
  | nil =>
    rw [List.intercalate_nil,hcase.lower_nil] at h
    exact absurd h List.not_mem_nil
  | cons t terms ih =>
    cases terms with
    | nil =>
      rw [List.intercalate_singleton] at h
      exact ⟨t,List.mem_cons_self,h⟩
    | cons t' terms =>
      rw [List.intercalate_cons_cons,List.append_assoc,List.singleton_append,hcase.lower_space,
        runs_append_cons (by decide),List.mem_append] at h
      rcases h with h | h
      · exact ⟨t,List.mem_cons_self,h⟩
      · obtain ⟨x,hx,hw⟩ := ih h
        exact ⟨x,List.mem_cons_of_mem _ hx,hw⟩

/-- The common name of an entry contains a word, whatever its case. -/
def holdsWord (tables : CaseTables) (w : QString) (e : Kademlia.Entry) : Bool :=
  tables.contains (tables.lower (getCommonFileName e.fileNames)) w

def HoldsTerm (tables : CaseTables) (e : Kademlia.Entry) (t : QString) : Prop :=
  ∀ w∈tokenizeOptQuotedSearchTerm (tables.lower t), holdsWord tables w e=true

theorem HoldsTerm.word {e : Kademlia.Entry} {t : QString} (hcase : ByCharacter tables)
    (h : HoldsTerm tables e t) (hw : w∈runs (tables.lower t)) : holdsWord tables w e=true := by
  obtain ⟨tok,htok,hw⟩ := mem_tokenize_of_mem_runs _ hw
  have hfound := h tok htok
  unfold holdsWord CaseTables.contains at hfound ⊢
  have hfold := fold_infix hcase hw
  exact decide_eq_true (hfold.trans (of_decide_eq_true hfound))

variable {expr rest : List SearchAttr} {term : SearchTerm} {terms : FilenameTerms}
  {calls : List Bool} {required : Bool}

/-- What reading one subtree and walking over it have in common. -/
structure Walked (tables : CaseTables) (expr rest : List SearchAttr) (term : SearchTerm)
    (required : Bool) (req opt : List QString) : Prop where
  walk : ∀ calls terms, collectFilenameTerms expr (required :: calls) terms =
    collectFilenameTerms rest calls ⟨terms.required ++ req, terms.optional ++ opt⟩
  free : required = false → req = []
  sound : ∀ e, searchTermsMatch tables e term = true → ∀ t ∈ req, HoldsTerm tables e t

theorem read_bool {levels : Nat} {op : UInt8} {io io' : List Node}
    (h : createSearchExpressionTree tables (levels+1) (.bool op::io)=(some term, io')) :
    ∃ l r mid, createSearchExpressionTree tables levels io=(some l, mid) ∧
      createSearchExpressionTree tables levels mid=(some r, io') ∧
      boolTerm l r op=some term := by
  rw [createSearchExpressionTree] at h
  split_ifs at h with hop
  · exact absurd (congrArg Prod.fst h) (by simp)
  · obtain ⟨hterm,hio⟩ := Prod.mk.inj h
    obtain ⟨l,hl,hterm⟩ := Option.bind_eq_some_iff.mp hterm
    obtain ⟨r,hr,hterm⟩ := Option.bind_eq_some_iff.mp hterm
    exact ⟨l,r,_,Prod.ext hl rfl,Prod.ext hr hio,hterm⟩

theorem Walked.pair {mid : List SearchAttr} {l r : SearchTerm} {fl fr : Bool}
    {req₁ opt₁ req₂ opt₂ : List QString} (h₁ : Walked tables expr mid l fl req₁ opt₁)
    (h₂ : Walked tables mid rest r fr req₂ opt₂) (calls : List Bool) (terms : FilenameTerms) :
    collectFilenameTerms expr (fl::fr::calls) terms =
      collectFilenameTerms rest calls
        ⟨terms.required++(req₁++req₂),terms.optional++(opt₁++opt₂)⟩ := by
  rw [h₁.walk,h₂.walk,List.append_assoc,List.append_assoc]

theorem node_of_leaf {a : SearchAttr} (h : isOperatorAttr a=false) :
    a.str≠kSearchOpTokenAnd ∧ a.str≠kSearchOpTokenOr ∧ a.str≠kSearchOpTokenNot ∧
      a.node=if a.str≠[] then
        if a.tag=FT_FILENAME then .string a.str else .metaTag a.str a.tag
      else .num a.num a.integerOperator a.tag := by
  obtain ⟨hand,hor,hnot⟩ : a.str≠kSearchOpTokenAnd ∧ a.str≠kSearchOpTokenOr ∧
      a.str≠kSearchOpTokenNot := by simpa [isOperatorAttr] using h
  refine ⟨hand,hor,hnot,?_⟩
  rw [SearchAttr.node,if_neg hand,if_neg hor,if_neg hnot]

theorem holds_leaf {levels : Nat} {a : SearchAttr} {io io' : List Node} {e : Kademlia.Entry}
    (hcase : ByCharacter tables) (hleaf : isOperatorAttr a=false) (htag : a.tag=FT_FILENAME)
    (h : createSearchExpressionTree tables (levels+1) (a.node::io)=(some term, io'))
    (he : searchTermsMatch tables e term=true) : HoldsTerm tables e (fromUtf8 a.str) := by
  rw [(node_of_leaf hleaf).2.2.2] at h
  by_cases hstr : a.str=[]
  · intro w hw
    have hempty : fromUtf8 []=[] := by decide +kernel
    rw [hstr,hempty,hcase.lower_nil,tokenizeOptQuotedSearchTerm] at hw
    exact absurd hw List.not_mem_nil
  · rw [if_pos hstr,if_pos htag,createSearchExpressionTree] at h
    obtain rfl := Option.some.inj (Prod.mk.inj h).1
    exact List.all_eq_true.mp (Bool.and_eq_true_iff.mp he).2

/-- The walk takes the subtrees that the receiver reads. -/
theorem walked_of_read (hcase : ByCharacter tables) (levels : Nat) :
    ∀ expr term io,createSearchExpressionTree tables levels (expr.map SearchAttr.node) =
      (some term, io) → ∃ rest, io=rest.map SearchAttr.node ∧
        ∀ required,∃ req opt, Walked tables expr rest term required req opt := by
  induction levels with
  | zero => exact fun _ _ _ h => by simp [createSearchExpressionTree] at h
  | succ levels ih =>
    intro expr term io h
    cases expr with
    | nil => simp [createSearchExpressionTree] at h
    | cons a expr =>
      rw [List.map_cons] at h
      -- an operator is read with two subtrees behind it, and each call gets a flag
      have hoperands : ∀ op,a.node = .bool op → ∃ l r mid rest, io=rest.map SearchAttr.node ∧
          boolTerm l r op=some term ∧
          (∀ required,∃ req opt, Walked tables expr mid l required req opt) ∧
          ∀ required,∃ req opt, Walked tables mid rest r required req opt := by
        intro op hop
        rw [hop] at h
        obtain ⟨l,r,io',hl,hr,hterm⟩ := read_bool h
        obtain ⟨mid,rfl,hleft⟩ := ih _ _ _ hl
        obtain ⟨rest,rfl,hright⟩ := ih _ _ _ hr
        exact ⟨l,r,mid,rest,rfl,hterm,hleft,hright⟩
      by_cases hand : a.str=kSearchOpTokenAnd
      · obtain ⟨l,r,mid,rest,hio,hterm,hleft,hright⟩ :=
          hoperands 0 (by rw [SearchAttr.node,if_pos hand])
        refine ⟨rest,hio,fun required => ?_⟩
        obtain ⟨req₁,opt₁,h₁⟩ := hleft required
        obtain ⟨req₂,opt₂,h₂⟩ := hright required
        obtain rfl : .and l r=term := Option.some.inj hterm
        refine ⟨req₁++req₂,opt₁++opt₂,?_,?_,?_⟩
        · intro calls terms
          rw [collectFilenameTerms,if_pos hand,h₁.pair h₂]
        · exact fun hfree => by rw [h₁.free hfree,h₂.free hfree,List.append_nil]
        · intro e he
          obtain ⟨hel,her⟩ := Bool.and_eq_true_iff.mp he
          exact List.forall_mem_append.mpr ⟨h₁.sound e hel,h₂.sound e her⟩
      · by_cases hor : a.str=kSearchOpTokenOr
        · obtain ⟨l,r,mid,rest,hio,hterm,hleft,hright⟩ :=
            hoperands 1 (by rw [SearchAttr.node,if_neg hand,if_pos hor])
          refine ⟨rest,hio,fun required => ?_⟩
          obtain ⟨req₁,opt₁,h₁⟩ := hleft false
          obtain ⟨req₂,opt₂,h₂⟩ := hright false
          obtain rfl := h₁.free rfl
          obtain rfl := h₂.free rfl
          refine ⟨[],opt₁++opt₂,?_,fun _ => rfl,fun _ _ _ ht => absurd ht List.not_mem_nil⟩
          intro calls terms
          rw [collectFilenameTerms,if_neg hand,if_pos hor,h₁.pair h₂,List.append_nil]
        · by_cases hnot : a.str=kSearchOpTokenNot
          · obtain ⟨l,r,mid,rest,hio,hterm,hleft,hright⟩ :=
              hoperands 2 (by rw [SearchAttr.node,if_neg hand,if_neg hor,if_pos hnot])
            refine ⟨rest,hio,fun required => ?_⟩
            obtain ⟨req₁,opt₁,h₁⟩ := hleft required
            obtain ⟨req₂,opt₂,h₂⟩ := hright false
            obtain rfl := h₂.free rfl
            obtain rfl : .not l r=term := Option.some.inj hterm
            refine ⟨req₁,opt₁++opt₂,?_,h₁.free,?_⟩
            · intro calls terms
              rw [collectFilenameTerms,if_neg hand,if_neg hor,if_pos hnot,h₁.pair h₂,
                List.append_nil]
            · intro e he
              exact h₁.sound e (Bool.and_eq_true_iff.mp he).1
          · have hleaf : isOperatorAttr a=false := by simp [isOperatorAttr,hand,hor,hnot]
            have hio : io=expr.map SearchAttr.node := by
              rw [(node_of_leaf hleaf).2.2.2] at h
              split_ifs at h <;> exact (Prod.mk.inj h).2.symm
            refine ⟨expr,hio,fun required => ?_⟩
            have hwalk : ∀ calls terms,collectFilenameTerms (a::expr) (required::calls) terms =
                collectFilenameTerms expr calls
                  (if a.tag=FT_FILENAME then
                    if required then { terms with required := terms.required++[fromUtf8 a.str] }
                    else { terms with optional := terms.optional++[fromUtf8 a.str] }
                  else terms) := fun calls terms => by
              rw [collectFilenameTerms,if_neg hand,if_neg hor,if_neg hnot]
              split_ifs <;> rfl
            by_cases htag : a.tag=FT_FILENAME
            · cases required with
              | true =>
                refine ⟨[fromUtf8 a.str],[],?_,nofun,?_⟩
                · intro calls terms
                  rw [hwalk,if_pos htag,if_pos rfl,List.append_nil]
                · exact fun e he => List.forall_mem_singleton.mpr
                    (holds_leaf hcase hleaf htag h he)
              | false =>
                refine ⟨[],[fromUtf8 a.str],?_,fun _ => rfl,
                  fun _ _ _ ht => absurd ht List.not_mem_nil⟩
                intro calls terms
                rw [hwalk,if_pos htag,if_neg Bool.false_ne_true,List.append_nil]
            · refine ⟨[],[],?_,fun _ => rfl,fun _ _ _ ht => absurd ht List.not_mem_nil⟩
              intro calls terms
              rw [hwalk,if_neg htag,List.append_nil,List.append_nil]

end Sound

section Whole

variable {tables : CaseTables} {a : SearchAttr}

/-- The texts of the terms of the file name that are not taken for operators. -/
def texts (expr : List SearchAttr) : List QString :=
  (expr.filter fun a => !isOperatorAttr a && decide (a.tag = FT_FILENAME)).map
    fun a => fromUtf8 a.str

theorem texts_append (l r : List SearchAttr) : texts (l++r)=texts l++texts r := by
  unfold texts
  rw [List.filter_append,List.map_append]

theorem isOperatorAttr_token (op : SearchOperator) : isOperatorAttr (.name op.token)=true := by
  cases op <;> rfl

theorem texts_token (op : SearchOperator) (expr : List SearchAttr) :
    texts (.name op.token::expr)=texts expr := by
  unfold texts
  rw [List.filter_cons_of_neg (by rw [isOperatorAttr_token]; simp)]

theorem texts_attrs (e : SearchExpr) : texts e.attrs=texts e.leaves := by
  induction e with
  | attr a => rfl
  | combined op result right ihl ihr =>
    rw [SearchExpr.attrs,SearchExpr.leaves,texts_token,texts_append,texts_append,ihl,ihr]

theorem collect_operator (h : isOperatorAttr a=true) (expr : List SearchAttr) (required : Bool)
    (calls : List Bool) (terms : FilenameTerms) : ∃ fl fr,
      collectFilenameTerms (a::expr) (required::calls) terms =
        collectFilenameTerms expr (fl::fr::calls) terms := by
  have hop : a.str=kSearchOpTokenAnd ∨ a.str=kSearchOpTokenOr ∨
      a.str=kSearchOpTokenNot := of_decide_eq_true h
  rw [collectFilenameTerms]
  by_cases hand : a.str=kSearchOpTokenAnd
  · exact ⟨_,_,by rw [if_pos hand]⟩
  · by_cases hor : a.str=kSearchOpTokenOr
    · exact ⟨_,_,by rw [if_neg hand,if_pos hor]⟩
    · have hnot := (hop.resolve_left hand).resolve_left hor
      exact ⟨_,_,by rw [if_neg hand,if_neg hor,if_pos hnot]⟩

theorem collect_leaf (h : isOperatorAttr a=false) (expr : List SearchAttr) (required : Bool)
    (calls : List Bool) (terms : FilenameTerms) : ∃ req opt,
      collectFilenameTerms (a::expr) (required::calls) terms =
        collectFilenameTerms expr calls ⟨terms.required++req,terms.optional++opt⟩ ∧
      (req++opt).Perm (texts [a]) := by
  obtain ⟨hand,hor,hnot,-⟩ := node_of_leaf h
  rw [collectFilenameTerms,if_neg hand,if_neg hor,if_neg hnot]
  by_cases htag : a.tag=FT_FILENAME
  · have htexts : texts [a]=[fromUtf8 a.str] := by simp [texts,h,htag]
    rw [if_pos htag,htexts]
    cases required with
    | true => exact ⟨[fromUtf8 a.str],[],by simp,.refl _⟩
    | false => exact ⟨[],[fromUtf8 a.str],by simp,.refl _⟩
  · exact ⟨[],[],by simp [htag],by simp [texts,htag]⟩

/-- The walk over a subtree lists its terms and returns to the calls that were to come, or, where
a text was taken for an operator, to more. -/
theorem collect_attrs (e : SearchExpr) :
    ∀ expr required calls terms, ∃ calls' req opt,
      collectFilenameTerms (e.attrs++expr) (required::calls) terms =
        collectFilenameTerms expr calls' ⟨terms.required++req,terms.optional++opt⟩ ∧
      calls.length≤calls'.length ∧ (req++opt).Perm (texts e.attrs) := by
  induction e with
  | attr a =>
    intro expr required calls terms
    rw [SearchExpr.attrs,List.singleton_append]
    cases hop : isOperatorAttr a with
    | true =>
      obtain ⟨fl,fr,h⟩ := collect_operator hop expr required calls terms
      refine ⟨fl::fr::calls,[],[],by rw [h,List.append_nil,List.append_nil],?_,?_⟩
      · simp only [List.length_cons]
        omega
      · simp [texts,hop]
    | false =>
      obtain ⟨req,opt,h,hperm⟩ := collect_leaf hop expr required calls terms
      exact ⟨calls,req,opt,h,le_rfl,hperm⟩
  | combined op result right ihl ihr =>
    intro expr required calls terms
    rw [SearchExpr.attrs,List.cons_append,List.append_assoc,texts_token,texts_append]
    obtain ⟨fl,fr,h⟩ := collect_operator (isOperatorAttr_token op)
      (result.attrs++(right.attrs++expr)) required calls terms
    obtain ⟨calls₁,req₁,opt₁,h₁,hcalls₁,hperm₁⟩ := ihl (right.attrs++expr) fl (fr::calls)
      terms
    obtain ⟨f,calls₁,rfl⟩ := List.exists_cons_of_length_pos
      (Nat.lt_of_lt_of_le (Nat.succ_pos _) hcalls₁)
    obtain ⟨calls₂,req₂,opt₂,h₂,hcalls₂,hperm₂⟩ := ihr expr f calls₁ _
    refine ⟨calls₂,req₁++req₂,opt₁++opt₂,?_,?_,?_⟩
    · rw [h,h₁,h₂,List.append_assoc,List.append_assoc]
    · simp only [List.length_cons] at hcalls₁
      omega
    · refine .trans (List.perm_iff_count.mpr fun x => ?_) (hperm₁.append hperm₂)
      simp only [List.count_append]
      omega

theorem serializeNode_attrs (e : SearchExpr) : ∀ expr calls,∃ more,
    serializeNode (e.attrs++expr) (calls+1) =
      e.attrs.map SearchAttr.node++serializeNode expr (calls+more) := by
  induction e with
  | attr a =>
    intro expr calls
    rw [SearchExpr.attrs,List.singleton_append,serializeNode]
    cases isOperatorAttr a with
    | true => exact ⟨2,rfl⟩
    | false => exact ⟨0,rfl⟩
  | combined op result right ihl ihr =>
    intro expr calls
    rw [SearchExpr.attrs,List.cons_append,serializeNode,isOperatorAttr_token,if_pos rfl,
      List.append_assoc]
    obtain ⟨more₁,h₁⟩ := ihl (right.attrs++expr) (calls+1)
    obtain ⟨more₂,h₂⟩ := ihr expr (calls+more₁)
    refine ⟨more₁+more₂,?_⟩
    rw [h₁,show calls+1+more₁=calls+more₁+1 by omega,h₂,Nat.add_assoc,List.map_cons,
      List.map_append,List.cons_append,List.append_assoc]

theorem toNodes_attrs (e : SearchExpr) : toNodes e.attrs=e.attrs.map SearchAttr.node := by
  obtain ⟨more,h⟩ := serializeNode_attrs e [] 0
  rw [List.append_nil] at h
  rw [toNodes,h,serializeNode,List.append_nil]

theorem searchTerm_attrs (e : SearchExpr) : searchTerm tables e.attrs =
    (createSearchExpressionTree tables 24 (e.attrs.map SearchAttr.node)).1 := by
  rw [searchTerm,toNodes_attrs]

/-- What the terms of an accepted expression are for. -/
structure TermsFound (tables : CaseTables) (env : ParserEnv) (depth : Nat) (expression : QString)
    (parsed : Option SearchExpr) : Prop where
  required : ∀ term, searchTerm tables (attrsOf parsed)=some term → ∀ e,
    searchTermsMatch tables e term=true →
    ∀ t ∈ (filenameTerms env depth expression).required, HoldsTerm tables e t
  /-- A lookup under one of the words leaves out no match. -/
  keyword : ∀ term, searchTerm tables (attrsOf parsed)=some term →
    ∀ w ∈ getWords tables (tables.lower (kadKeywordSource env depth expression)),
    ∀ es : List Kademlia.Entry,
      (es.filter (holdsWord tables w)).filter (searchTermsMatch tables · term) =
      es.filter (searchTermsMatch tables · term)
  consumed : (walk parsed).2=[]
  listed : ((filenameTerms env depth expression).required ++
      (filenameTerms env depth expression).optional).Perm
    (((leavesOf parsed).filter fun a => decide (a.tag=FT_FILENAME)).map fun a => fromUtf8 a.str)

variable {env : ParserEnv} {depth : Nat} {expression : QString} {parsed : Option SearchExpr}

theorem filenameTerms_of_ok (h : parsePlain env depth expression = .ok parsed) :
    filenameTerms env depth expression=(walk parsed).1 := by
  rw [filenameTerms,h]

theorem walk_holds (hcase : ByCharacter tables) {term : SearchTerm}
    (h : searchTerm tables (attrsOf parsed)=some term) {e : Kademlia.Entry}
    (he : searchTermsMatch tables e term=true) :
    ∀ t∈(walk parsed).1.required, HoldsTerm tables e t := by
  cases parsed with
  | none => simp [searchTerm,attrsOf,toNodes,serializeNode,createSearchExpressionTree] at h
  | some expr =>
    change searchTerm tables expr.attrs=some term at h
    rw [searchTerm_attrs] at h
    obtain ⟨rest,-,hwalked⟩ := walked_of_read hcase 24 expr.attrs term _ (Prod.ext h rfl)
    obtain ⟨req,opt,hwalk⟩ := hwalked true
    have hterms : (walk (some expr)).1.required=req := by
      change (collectFilenameTerms expr.attrs [true] ⟨[],[]⟩).1.required=req
      rw [hwalk.walk,collectFilenameTerms]
      exact List.nil_append req
    rw [hterms]
    exact hwalk.sound e he

theorem walk_lists (parsed : Option SearchExpr) : (walk parsed).2=[] ∧
    ((walk parsed).1.required++(walk parsed).1.optional).Perm (texts (leavesOf parsed)) := by
  cases parsed with
  | none => exact ⟨rfl,.refl _⟩
  | some e =>
    obtain ⟨calls,req,opt,h,-,hperm⟩ := collect_attrs e [] true [] ⟨[],[]⟩
    rw [List.append_nil] at h
    have hwalk : walk (some e)=(⟨req,opt⟩, []) := by
      change collectFilenameTerms e.attrs [true] ⟨[],[]⟩=_
      rw [h]
      cases calls <;> rfl
    rw [hwalk]
    rw [texts_attrs] at hperm
    exact ⟨rfl,hperm⟩

theorem listed_iff (leaves : List SearchAttr) {listed : List QString}
    (h : listed.Perm (texts leaves)) :
    listed.Perm ((leaves.filter fun a => decide (a.tag=FT_FILENAME)).map
        fun a => fromUtf8 a.str) ↔
      ∀ a∈leaves,a.tag=FT_FILENAME → isOperatorAttr a=false := by
  have hfilter : (leaves.filter fun a => !isOperatorAttr a && decide (a.tag=FT_FILENAME)) =
      (leaves.filter fun a => decide (a.tag=FT_FILENAME)).filter fun a => !isOperatorAttr a := by
    rw [List.filter_filter]
  rw [texts,hfilter] at h
  constructor
  · intro hall a ha htag
    have hlength := h.symm.length_eq.trans hall.length_eq
    rw [List.length_map,List.length_map,List.length_filter_eq_length_iff] at hlength
    simpa using hlength a (List.mem_filter.mpr ⟨ha,decide_eq_true htag⟩)
  · intro hnone
    rw [List.filter_eq_self.mpr] at h
    · exact h
    · intro a ha
      obtain ⟨ha,htag⟩ := List.mem_filter.mp ha
      rw [hnone a ha (of_decide_eq_true htag),Bool.not_false]

/-- The terms do what they are for exactly when no term of the file name, which may be a quoted
string with the escape `\xAD`, reads like an operator. -/
theorem termsFound_iff (tables : CaseTables) (hcase : ByCharacter tables) (env : ParserEnv)
    (depth : Nat) (expression : QString) (parsed : Option SearchExpr)
    (h : parsePlain env depth expression = .ok parsed) :
    TermsFound tables env depth expression parsed ↔
      ∀ a ∈ leavesOf parsed, a.tag = FT_FILENAME → isOperatorAttr a = false := by
  obtain ⟨hconsumed,hlists⟩ := walk_lists parsed
  have hterms := filenameTerms_of_ok h
  have hlisted := listed_iff (leavesOf parsed) hlists
  rw [← hterms] at hlisted
  refine ⟨fun hfound => hlisted.mp hfound.listed,fun hnone => ⟨?_,?_,hconsumed,
    hlisted.mpr hnone⟩⟩
  · intro term hterm e he
    rw [hterms]
    exact walk_holds hcase hterm he
  · intro term hterm w hw es
    obtain ⟨t,ht,hwt⟩ := runs_lower_joined hcase _ (mem_runs_of_mem_getWords hw)
    rw [hterms] at ht
    rw [List.filter_filter]
    refine List.filter_congr fun e _ => ?_
    cases hmatch : searchTermsMatch tables e term with
    | false => rfl
    | true => exact (walk_holds hcase hterm hmatch t ht).word hcase hwt

/-- Plain digits, and case mapping in ASCII. -/
def sampleEnv : ParserEnv where
  links := sampleReader
  keepQuotedStrings := false
  strtod s := (s.takeWhile isDigit).length
  scaled s factor := UInt64.ofNat (s.foldl (fun v d => 10*v+(d-0x30).toNat) 0*factor)

def sampleTables : CaseTables := ⟨QString.toLower,List.map foldCase⟩

theorem byCharacter_sampleTables : ByCharacter sampleTables where
  lower_nil := rfl
  lower_space a b := List.map_append
  fold_ascii a u b _ := by
    change (a++u::b).map foldCase=_
    rw [List.map_append,List.map_cons]
    rfl

theorem termsFound_not : TermsFound sampleTables sampleEnv 20 (lit "foo -bar")
    (some (.combined .not (.attr (.name (ascii "foo"))) (.attr (.name (ascii "bar"))))) :=
  (termsFound_iff sampleTables byCharacter_sampleTables sampleEnv 20 _ _ (by decide +kernel)).mpr
    (by decide)

/-- `"\x0ADAND"`, with the quotes: the only term is taken for an operator, and not listed. -/
theorem not_termsFound_escape : ¬ ∀ parsed,
    parsePlain sampleEnv 20 (lit "\"\\x0ADAND\"") = .ok parsed →
      TermsFound sampleTables sampleEnv 20 (lit "\"\\x0ADAND\"") parsed := by
  intro hall
  have hparse : parsePlain sampleEnv 20 (lit "\"\\x0ADAND\"") =
      .ok (some (.attr (.name kSearchOpTokenAnd))) := by decide +kernel
  have hperm := (hall _ hparse).listed
  rw [filenameTerms_of_ok hparse] at hperm
  exact absurd hperm.length_eq (by decide)

end Whole

end EmuleQt.Search
