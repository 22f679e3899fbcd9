import EmuleQt.Files.PublishKeywordList

namespace EmuleQt.Files

open Framework Utils
open IndexedList (turns)

namespace PublishKeyword

variable {φ : Type} {kw : PublishKeyword φ}

theorem publishUnits_zero : publishUnits 0=0 := by decide

theorem rotateReferences_perm (count : Int) (kw : PublishKeyword φ) :
    (kw.rotateReferences count).files.Perm kw.files := by
  unfold rotateReferences
  split_ifs
  · exact List.Perm.refl _
  · apply List.perm_append_comm.trans
    rw [List.take_append_drop]

/-- Each file is there once, and the set is that of the files. -/
structure Ok (kw : PublishKeyword φ) : Prop where
  nodup : kw.files.Nodup
  set : kw.fileSet.Perm kw.files

theorem ok_init (keyword : QString) : (init keyword : PublishKeyword φ).Ok :=
  ⟨List.nodup_nil,List.Perm.refl _⟩

theorem Ok.files_perm {kw' : PublishKeyword φ} (h : kw.Ok) (hfiles : kw'.files.Perm kw.files)
    (hset : kw'.fileSet=kw.fileSet) : kw'.Ok :=
  ⟨hfiles.nodup_iff.mpr h.nodup,hset ▸ h.set.trans hfiles.symm⟩

variable [DecidableEq φ]

theorem addRef_spec (h : kw.Ok) (file : φ) : (kw.addRef file).2.Ok ∧
    (∀ f,f∈(kw.addRef file).2.files ↔ f∈kw.files ∨ f=file) ∧
    (kw.addRef file).2.keyword=kw.keyword := by
  unfold addRef
  split_ifs with hin
  · refine ⟨h,?_,rfl⟩
    rintro f
    refine ⟨.inl,?_⟩
    rintro (hf | rfl)
    · exact hf
    · exact h.set.mem_iff.mp hin
  · have hnew : file∉kw.files := fun hmem => hin (h.set.mem_iff.mpr hmem)
    refine ⟨⟨?_,?_⟩,?_,rfl⟩
    · apply h.nodup.append (List.nodup_singleton file)
      intro f hf hfile
      exact hnew (List.mem_singleton.mp hfile ▸ hf)
    · exact (h.set.cons file).trans (List.perm_append_singleton file _).symm
    · intro f
      rw [List.mem_append,List.mem_singleton]

theorem removeRef_spec (h : kw.Ok) (file : φ) : (kw.removeRef file).Ok ∧
    (∀ f,f∈(kw.removeRef file).files ↔ f∈kw.files ∧ f≠file) ∧
    (kw.removeRef file).keyword=kw.keyword := by
  unfold removeRef
  split_ifs with hin
  · refine ⟨⟨h.nodup.erase file,h.set.erase file⟩,?_,rfl⟩
    intro f
    rw [h.nodup.mem_erase_iff]
    exact and_comm
  · have hnew : file∉kw.files := fun hmem => hin (h.set.mem_iff.mpr hmem)
    refine ⟨h,?_,rfl⟩
    intro f
    refine ⟨fun hf => ⟨hf,?_⟩,And.left⟩
    rintro rfl
    exact hnew hf

end PublishKeyword

namespace PublishKeywordList

variable {φ : Type} {toLower : QString → QString} {l : PublishKeywordList φ}
  {r : φ → QString → Prop}

/-- The files of the entry of a word, none without one. -/
def refs (toLower : QString → QString) (l : PublishKeywordList φ) (w : QString) : List φ :=
  (l.keywords.lookup (lowerOf toLower) w).elim [] PublishKeyword.files

/-- What the loops keep: the list and its index, the files of each entry, those of each word, and
the sum of the work. -/
structure Kept (toLower : QString → QString) (l : PublishKeywordList φ)
    (r : φ → QString → Prop) : Prop where
  list : l.keywords.Consistent (lowerOf toLower)
  entries : ∀ w kw, l.keywords.lookup (lowerOf toLower) w = some kw → kw.Ok
  refs : ∀ w f, f ∈ l.refs toLower w ↔ r f w
  units : l.publishUnits = (l.keywords.entries.map PublishKeyword.units).sum

/-- No entry is without a file. -/
def Referenced (toLower : QString → QString) (l : PublishKeywordList φ) : Prop :=
  ∀ w kw, l.keywords.lookup (lowerOf toLower) w = some kw → kw.files ≠ []

theorem ensureKeyword_spec (h : l.Kept toLower r) (word : QString) :
    ∃ it kw, (ensureKeyword toLower word l).keywords.find (toLower word)=some it ∧
      (ensureKeyword toLower word l).keywords.deref it=some kw ∧
      lowerOf toLower kw=toLower word ∧ kw.Ok ∧
      kw.files=l.refs toLower (toLower word) ∧
      (ensureKeyword toLower word l).Kept toLower r ∧
      (∀ w,w≠toLower word → (ensureKeyword toLower word l).keywords.lookup (lowerOf toLower) w =
        l.keywords.lookup (lowerOf toLower) w) ∧
      (ensureKeyword toLower word l).wordsOf=l.wordsOf := by
  cases hfind : l.keywords.find (toLower word) with
  | some it =>
    obtain ⟨kw,hkw,hkey⟩ := (IndexedList.find_eq_some h.list).mp hfind
    have hsame : ensureKeyword toLower word l=l := by
      rw [ensureKeyword,hfind]
    have hlookup := IndexedList.lookup_isSome_of_deref h.list hkw
    rw [hkey] at hlookup
    rw [hsame]
    refine ⟨it,kw,hfind,hkw,hkey,h.entries _ kw hlookup,?_,h,fun _ _ => rfl,rfl⟩
    rw [refs,hlookup]
    rfl
  | none =>
    have hmade : ensureKeyword toLower word l = { l with
        keywords := l.keywords.push (lowerOf toLower) (.init word), nextPublishTime := 0 } := by
      rw [ensureKeyword,hfind]
    have hnew := (IndexedList.find_eq_none h.list).mp hfind
    have hlist := IndexedList.push_consistent (a := PublishKeyword.init word) hnew h.list
    have hlookup := IndexedList.lookup_push (a := PublishKeyword.init word) hnew
    obtain ⟨it,hit,hderef⟩ :=
      IndexedList.find_of_lookup hlist ((hlookup (toLower word)).trans (if_pos rfl))
    have hnone : l.refs toLower (toLower word)=[] := by
      rw [refs,hnew]
      rfl
    rw [hmade]
    refine ⟨it,.init word,hit,hderef,rfl,PublishKeyword.ok_init word,hnone.symm,
      ⟨hlist,?_,?_,?_⟩,?_,rfl⟩
    · intro w kw hkw
      rw [hlookup] at hkw
      split_ifs at hkw
      · rw [← Option.some.inj hkw]
        exact PublishKeyword.ok_init word
      · exact h.entries w kw hkw
    · intro w f
      rw [← h.refs,refs,hlookup]
      split_ifs with hw
      · change w=toLower word at hw
        rw [hw,hnone]
        rfl
      · rfl
    · have hzero : (PublishKeyword.init word : PublishKeyword φ).units=0 :=
        PublishKeyword.publishUnits_zero
      rw [IndexedList.entries_push,List.map_append,List.sum_append,← h.units,List.map_singleton,
        List.sum_singleton,hzero,Int.add_zero]
    · intro w hw
      exact (hlookup w).trans (if_neg hw)

theorem dropKeyword_kept (h : l.Kept toLower r) {it : Nat} {kw : PublishKeyword φ}
    (hderef : l.keywords.deref it=some kw) (hnone : kw.files=[]) :
    (dropKeyword toLower it kw l).Kept toLower r := by
  have hlookup := IndexedList.lookup_erase h.list hderef
  have hold := IndexedList.lookup_isSome_of_deref h.list hderef
  unfold dropKeyword
  refine ⟨IndexedList.erase_consistent h.list hderef,?_,?_,?_⟩
  · intro w kw' hkw'
    rw [hlookup] at hkw'
    split_ifs at hkw'
    exact h.entries w kw' hkw'
  · intro w f
    rw [← h.refs,refs,refs]
    rw [hlookup]
    split_ifs with hw
    · rw [hw,hold,Option.elim_some,hnone]
      rfl
    · rfl
  · dsimp only
    rw [IndexedList.sum_erase h.list hderef,h.units]

theorem foldlM_purgeAt {its : List Nat} (h : l.Kept toLower r) (hnodup : its.Nodup)
    (hlive : ∀ it∈its,it∈l.keywords.addresses)
    (hrest : ∀ it kw,l.keywords.deref it=some kw → kw.files=[] → it∈its) :
    ∃ l', its.foldlM (purgeAt toLower) l=some l' ∧ l'.Kept toLower r ∧ l'.Referenced toLower ∧
      l'.wordsOf=l.wordsOf := by
  induction its generalizing l with
  | nil =>
    refine ⟨l,rfl,h,?_,rfl⟩
    intro w kw hkw hnil
    obtain ⟨it,-,hderef⟩ := IndexedList.find_of_lookup h.list hkw
    cases hrest it kw hderef hnil
  | cons it its ih =>
    obtain ⟨hit,hits⟩ := List.nodup_cons.mp hnodup
    obtain ⟨kw,hderef⟩ := IndexedList.deref_isSome h.list (hlive it List.mem_cons_self)
    have hstep : purgeAt toLower l it =
        if kw.refCount=0 then some (dropKeyword toLower it kw l) else some l := by
      rw [purgeAt,hderef,Option.bind_some,eraseKeyword,hderef,Option.map_some]
    rw [List.foldlM_cons,hstep]
    split_ifs with hcount
    · have hnil : kw.files=[] := List.length_eq_zero_iff.mp hcount
      have hkept := dropKeyword_kept h hderef hnil
      have hmem : ∀ n,n∈(dropKeyword toLower it kw l).keywords.nodes ↔
          n∈l.keywords.nodes ∧ n.1≠it := by
        intro n
        change n∈l.keywords.nodes.filter _ ↔ _
        rw [List.mem_filter,decide_eq_true_iff]
      apply ih hkept hits
      · intro it' hit'
        obtain ⟨n,hn,rfl⟩ := List.mem_map.mp (hlive it' (List.mem_cons_of_mem it hit'))
        refine List.mem_map_of_mem ((hmem n).mpr ⟨hn,?_⟩)
        rintro rfl
        exact hit hit'
      · intro it' kw' hkw' hnil'
        have hnode := (hmem (it', kw')).mp ((IndexedList.deref_eq_some hkept.list).mp hkw')
        have hin := hrest it' kw' ((IndexedList.deref_eq_some h.list).mpr hnode.1) hnil'
        exact (List.mem_cons.mp hin).resolve_left hnode.2
    · apply ih h hits fun it' hit' => hlive it' (List.mem_cons_of_mem it hit')
      intro it' kw' hkw' hnil'
      rcases List.mem_cons.mp (hrest it' kw' hkw' hnil') with rfl | hin
      · rw [hderef] at hkw'
        rw [← Option.some.inj hkw'] at hnil'
        exact absurd (List.length_eq_zero_iff.mpr hnil') hcount
      · exact hin

theorem purge_spec (h : l.Kept toLower r) :
    ∃ l', purgeUnreferencedKeywords toLower l=some l' ∧ l'.Kept toLower r ∧
      l'.Referenced toLower ∧ l'.wordsOf=l.wordsOf := by
  apply foldlM_purgeAt h h.list.addresses fun it hit => hit
  intro it kw hderef _
  exact List.mem_map_of_mem ((IndexedList.deref_eq_some h.list).mp hderef)

theorem removeAllKeywordReferences_kept (h : l.Kept toLower r) :
    l.removeAllKeywordReferences.Kept toLower fun _ _ => False := by
  have hkey : ∀ kw : PublishKeyword φ, lowerOf toLower kw.removeAllReferences =
      lowerOf toLower kw := fun _ => rfl
  have hlookup : ∀ w,l.removeAllKeywordReferences.keywords.lookup (lowerOf toLower) w =
      (l.keywords.lookup (lowerOf toLower) w).map PublishKeyword.removeAllReferences :=
    IndexedList.lookup_mapAll h.list hkey
  refine ⟨IndexedList.mapAll_consistent h.list hkey,?_,?_,?_⟩
  · intro w kw hkw
    rw [hlookup] at hkw
    obtain ⟨kw',-,rfl⟩ := Option.map_eq_some_iff.mp hkw
    exact ⟨List.nodup_nil,List.Perm.refl _⟩
  · intro w f
    rw [refs,hlookup]
    cases l.keywords.lookup (lowerOf toLower) w <;> simp [PublishKeyword.removeAllReferences]
  · have hzero : PublishKeyword.units ∘ PublishKeyword.removeAllReferences =
        fun _ : PublishKeyword φ => (0 : Int) := by
      funext kw
      exact PublishKeyword.publishUnits_zero
    change (0 : Int)=((l.keywords.mapAll _).entries.map PublishKeyword.units).sum
    rw [IndexedList.entries_mapAll,List.map_map,hzero]
    simp

theorem modify_kept (h : l.Kept toLower r) {it : Nat} {kw : PublishKeyword φ}
    (hderef : l.keywords.deref it=some kw) {f : PublishKeyword φ → PublishKeyword φ}
    (hf : ∀ kw,(f kw).keyword=kw.keyword ∧ (f kw).files.Perm kw.files ∧
      (f kw).fileSet=kw.fileSet) :
    Kept toLower { l with keywords := l.keywords.modify it f } r ∧
      (l.Referenced toLower →
        Referenced toLower { l with keywords := l.keywords.modify it f }) := by
  obtain ⟨hkeyword,hfiles,hset⟩ := hf kw
  have hkey : lowerOf toLower (f kw)=lowerOf toLower kw := congrArg toLower hkeyword
  have hlookup := IndexedList.lookup_modify h.list hderef hkey
  have hold := IndexedList.lookup_isSome_of_deref h.list hderef
  refine ⟨⟨IndexedList.modify_consistent h.list hderef hkey,?_,?_,?_⟩,?_⟩
  · intro w kw' hkw'
    rw [hlookup] at hkw'
    split_ifs at hkw' with hw
    · rw [← Option.some.inj hkw']
      exact (h.entries _ kw hold).files_perm hfiles hset
    · exact h.entries w kw' hkw'
  · intro w g
    rw [← h.refs,refs,refs]
    rw [hlookup]
    split_ifs with hw
    · rw [hw,hold,Option.elim_some,Option.elim_some]
      exact hfiles.mem_iff
    · rfl
  · have hunits : (f kw).units=kw.units :=
      congrArg PublishKeyword.publishUnits hfiles.length_eq
    rw [IndexedList.sum_modify h.list hderef,hunits,h.units]
    omega
  · intro hreferenced w kw' hkw'
    rw [hlookup] at hkw'
    split_ifs at hkw' with hw
    · rw [← Option.some.inj hkw']
      intro hnil
      rw [hnil] at hfiles
      exact hreferenced _ kw hold (List.nil_perm.mp hfiles)
    · exact hreferenced w kw' hkw'

/-- What a walk of the cursor leaves as it is. -/
structure Walked (toLower : QString → QString) (r : φ → QString → Prop)
    (l l' : PublishKeywordList φ) (looked : List Nat) : Prop where
  kept : l'.Kept toLower r
  referenced : l.Referenced toLower → l'.Referenced toLower
  words : l'.wordsOf = l.wordsOf
  addresses : l'.keywords.addresses = l.keywords.addresses
  walk : looked = turns looked.length l.keywords.lap
  lap : l'.keywords.lap = l.keywords.lap.rotate looked.length

theorem look_walked (h : l.Kept toLower r) (hne : l.keywords.nodes≠[])
    (t : PublishKeyword φ → Int) :
    ∃ p kw, l.keywords.stand=some p ∧ l.keywords.deref p=some kw ∧
      Walked toLower r l { l with keywords :=
        (l.keywords.modify p (PublishKeyword.setNextPublishTime (t kw))).advance } [p] := by
  obtain ⟨p,rest,hstand,hlive,hlap,-⟩ := IndexedList.lap_advance h.list hne
  obtain ⟨kw,hderef⟩ := IndexedList.deref_isSome h.list hlive
  obtain ⟨hkept,href⟩ := modify_kept h hderef (f := PublishKeyword.setNextPublishTime (t kw))
    fun _ => ⟨rfl,List.Perm.refl _,rfl⟩
  refine ⟨p,kw,hstand,hderef,⟨⟨IndexedList.advance_consistent hkept.list,hkept.entries,
    hkept.refs,hkept.units⟩,href,rfl,IndexedList.addresses_modify _ _ _,?_,?_⟩⟩
  · rw [hlap]
    rfl
  · have hne' : (l.keywords.modify p (PublishKeyword.setNextPublishTime (t kw))).nodes≠[] := by
      intro hnil
      exact hne (List.map_eq_nil_iff.mp hnil)
    obtain ⟨p',rest',hstand',-,hlap',hturned⟩ := IndexedList.lap_advance hkept.list hne'
    rw [IndexedList.lap_modify] at hlap'
    rw [hturned,hlap',List.length_singleton,List.rotate_cons_succ,List.rotate_zero]

theorem Walked.trans {l₁ l₂ : PublishKeywordList φ} {xs ys : List Nat}
    (h : Walked toLower r l l₁ xs) (h' : Walked toLower r l₁ l₂ ys) :
    Walked toLower r l l₂ (xs++ys) := by
  refine ⟨h'.kept,fun href => h'.referenced (h.referenced href),h'.words.trans h.words,
    h'.addresses.trans h.addresses,?_,?_⟩
  · rw [List.length_append,IndexedList.turns_add,← h.walk,← h.lap,← h'.walk]
  · rw [h'.lap,h.lap,List.rotate_rotate,List.length_append]

theorem Walked.refl (h : l.Kept toLower r) : Walked toLower r l l [] :=
  ⟨h,id,rfl,rfl,rfl,(List.rotate_zero _).symm⟩

theorem lookOn_spec (h : l.Kept toLower r) (due : PublishKeyword φ → Bool × Int) (looks : Nat)
    (hne : looks≠0 → l.keywords.nodes≠[]) : ∃ l' looked found,
      lookOn due looks l=some (l', looked, found) ∧ Walked toLower r l l' looked ∧
      (∀ p,found=some p → p∈l.keywords.addresses) ∧
      looked.length≤looks ∧ (found=none → looked.length=looks) := by
  induction looks generalizing l with
  | zero => exact ⟨l,[],none,rfl,Walked.refl h,by simp,le_refl _,fun _ => rfl⟩
  | succ looks ih =>
    obtain ⟨p,kw,hstand,hderef,hone⟩ :=
      look_walked h (hne (Nat.succ_ne_zero looks)) fun kw => (due kw).2
    have hlive : p∈l.keywords.addresses :=
      List.mem_map_of_mem ((IndexedList.deref_eq_some h.list).mp hderef)
    rw [lookOn,hstand,Option.bind_some,hderef,Option.bind_some]
    dsimp only
    split_ifs with hdue
    · refine ⟨_,[p],some p,rfl,hone,?_,Nat.succ_le_succ (Nat.zero_le _),nofun⟩
      intro q hq
      obtain rfl := Option.some.inj hq
      exact hlive
    · have hne' : looks≠0 →
          ((l.keywords.modify p (PublishKeyword.setNextPublishTime (due kw).2)).advance).nodes≠[] := by
        intro _ hnil
        exact hne (Nat.succ_ne_zero looks) (List.map_eq_nil_iff.mp hnil)
      obtain ⟨l',looked,found,hrun,hrest,hfound,hle,hall⟩ := ih hone.kept hne'
      rw [hrun,Option.map_some]
      refine ⟨l',p::looked,found,rfl,hone.trans hrest,?_,?_,?_⟩
      · intro q hq
        exact hone.addresses ▸ hfound q hq
      · exact Nat.succ_le_succ hle
      · exact fun hnone => congrArg (· + 1) (hall hnone)

theorem publishDueKeyword_spec (h : l.Kept toLower r) (maxLook : Int)
    (due : PublishKeyword φ → Bool × Int) (published : Option (Int × Int)) : ∃ l' looked,
      publishDueKeyword maxLook due published l=some (l', looked) ∧
      Walked toLower r l l' looked := by
  have hne : (min maxLook l.keywords.nodes.length).toNat≠0 → l.keywords.nodes≠[] := by
    rintro hlooks hnil
    rw [hnil,List.length_nil] at hlooks
    omega
  obtain ⟨l₁,looked,found,hrun,hwalked,hfound,-⟩ := lookOn_spec h due _ hne
  unfold publishDueKeyword nextDueKeyword
  rw [hrun,Option.bind_some]
  match found, published with
  | none, _ => exact ⟨l₁,looked,rfl,hwalked⟩
  | some _, none => exact ⟨l₁,looked,rfl,hwalked⟩
  | some p, some (count, time) =>
    have hlive : p∈l₁.keywords.addresses := hwalked.addresses ▸ hfound p rfl
    obtain ⟨kw,hderef⟩ := IndexedList.deref_isSome hwalked.kept.list hlive
    obtain ⟨hkept,href⟩ := modify_kept hwalked.kept hderef
      (f := fun kw => (kw.rotateReferences count).setNextPublishTime time) fun kw =>
        ⟨by unfold PublishKeyword.rotateReferences; split_ifs <;> rfl,
          PublishKeyword.rotateReferences_perm count kw,
          by unfold PublishKeyword.rotateReferences; split_ifs <;> rfl⟩
    refine ⟨_,looked,by dsimp only; rw [hderef,Option.map_some],hkept,
      fun h => href (hwalked.referenced h),hwalked.words,?_,hwalked.walk,?_⟩
    · exact (IndexedList.addresses_modify _ _ _).trans hwalked.addresses
    · exact (IndexedList.lap_modify _ _ _).trans hwalked.lap

theorem publishInTurn_spec (h : l.Kept toLower r)
    (probes : List (Int × (PublishKeyword φ → Bool × Int) × Option (Int × Int))) : ∃ l' looked,
      publishInTurn l probes=some (l', looked) ∧ Walked toLower r l l' looked := by
  induction probes generalizing l with
  | nil => exact ⟨l,[],rfl,Walked.refl h⟩
  | cons probe probes ih =>
    obtain ⟨maxLook,due,published⟩ := probe
    obtain ⟨l₁,xs,hone,h₁⟩ := publishDueKeyword_spec h maxLook due published
    obtain ⟨l₂,ys,hrest,h₂⟩ := ih h₁.kept
    refine ⟨l₂,xs++ys,?_,h₁.trans h₂⟩
    rw [publishInTurn,hone,Option.bind_some,hrest,Option.map_some]

theorem Walked.window {l' : PublishKeywordList φ} {looked : List Nat} {k : Nat}
    (h : Walked toLower r l l' looked) (hk : k+l.keywords.nodes.length≤looked.length) :
    ((looked.drop k).take l.keywords.nodes.length).Perm l.keywords.addresses := by
  have hlength : l.keywords.lap.length=l.keywords.nodes.length :=
    l.keywords.lap_perm.length_eq.trans (List.length_map _)
  have hturns : (((turns looked.length l.keywords.lap).drop k).take l.keywords.lap.length).Perm
      l.keywords.lap := IndexedList.turns_window (hlength.symm ▸ hk)
  rw [← h.walk,hlength] at hturns
  exact hturns.trans l.keywords.lap_perm

theorem nextDueKeyword_spec (h : l.Kept toLower r) (maxLook : Int)
    (due : PublishKeyword φ → Bool × Int) : ∃ l' looked found,
      nextDueKeyword maxLook due l=some (l', looked, found) ∧
      (found=none → l.keywords.nodes.length ≤ maxLook → looked.Perm l.keywords.addresses) := by
  have hne : (min maxLook l.keywords.nodes.length).toNat≠0 → l.keywords.nodes≠[] := by
    rintro hlooks hnil
    rw [hnil,List.length_nil] at hlooks
    omega
  obtain ⟨l',looked,found,hrun,hwalked,-,-,hall⟩ := lookOn_spec h due _ hne
  refine ⟨l',looked,found,hrun,?_⟩
  intro hnone hmax
  have hlooked : looked.length=l.keywords.nodes.length := by
    have := hall hnone
    omega
  have hwindow := hwalked.window (k := 0) (by omega)
  rw [List.drop_zero,← hlooked,List.take_length] at hwindow
  exact hwindow

variable [DecidableEq φ]

/-- The words a file is registered under. -/
def registered (l : PublishKeywordList φ) (f : φ) : List QString :=
  (lookupKey Prod.fst f l.wordsOf).elim [] Prod.snd

/-- What holds between the calls. -/
structure Sound (toLower : QString → QString) (l : PublishKeywordList φ)
    (r : φ → QString → Prop) (b : Bool) : Prop where
  kept : l.Kept toLower r
  referenced : b = true → l.Referenced toLower
  words : ∀ f w, w ∈ l.registered f ↔ r f w

theorem mem_registerWord (file : φ) (lower : QString) (wordsOf : List (φ × List QString))
    (f : φ) (w : QString) :
    w∈(lookupKey Prod.fst f (registerWord file lower wordsOf)).elim [] Prod.snd ↔
      w∈(lookupKey Prod.fst f wordsOf).elim [] Prod.snd ∨ (f=file ∧ w=lower) := by
  unfold registerWord
  by_cases hf : f=file
  · subst hf
    rw [lookupKey_upsert_self rfl,Option.elim_some]
    dsimp only
    split_ifs with hin
    · refine ⟨.inl,?_⟩
      rintro (hw | ⟨-,rfl⟩)
      · exact hw
      · exact hin
    · simp
  · rw [lookupKey_upsert_ne rfl hf]
    simp [hf]

theorem addWord_spec (h : l.Kept toLower r) (hwords : ∀ f w,w∈l.registered f ↔ r f w)
    {b : Bool} (hreferenced : b=true → l.Referenced toLower) (file : φ) (word : QString) :
    ∃ l', addWord toLower file l word=some l' ∧
      l'.Sound toLower (fun f w => r f w ∨ (f=file ∧ toLower word=w)) b := by
  obtain ⟨it,kw,hfind,hderef,hkey,hok,hfiles,hmade,hothers,hsame⟩ :=
    ensureKeyword_spec h word
  obtain ⟨hok',hadd,hkeyword⟩ := PublishKeyword.addRef_spec hok file
  have hlong : (reference file kw).Ok ∧ (reference file kw).files=(kw.addRef file).2.files ∧
      (reference file kw).keyword=kw.keyword := by
    unfold reference
    dsimp only
    split_ifs
    · exact ⟨hok'.files_perm (List.Perm.refl _) rfl,rfl,hkeyword⟩
    · exact ⟨hok',rfl,hkeyword⟩
  obtain ⟨hokr,hfilesr,hkeyr⟩ := hlong
  have hlower : lowerOf toLower (reference file kw)=lowerOf toLower kw := congrArg toLower hkeyr
  have hlookup := IndexedList.lookup_modify hmade.list hderef hlower
  have hother : ∀ w,w≠toLower word → _ := fun w hw =>
    (hlookup w).trans ((if_neg (by rw [hkey]; exact hw)).trans (hothers w hw))
  have hself := (hlookup (toLower word)).trans (if_pos hkey.symm)
  refine ⟨_,by rw [addWord,hfind,Option.bind_some,hderef,Option.map_some],
    ⟨IndexedList.modify_consistent hmade.list hderef hlower,?_,?_,?_⟩,?_,?_⟩
  · intro w kw' hkw'
    by_cases hw : w=toLower word
    · rw [hw,hself] at hkw'
      rw [← Option.some.inj hkw']
      exact hokr
    · exact h.entries w kw' ((hother w hw).symm.trans hkw')
  · intro w f
    by_cases hw : w=toLower word
    · subst hw
      rw [refs,hself,Option.elim_some,hfilesr,hadd,hfiles,h.refs]
      simp
    · rw [refs,hother w hw]
      apply (h.refs w f).trans
      have hne : toLower word≠w := fun heq => hw heq.symm
      simp [hne]
  · dsimp only
    rw [IndexedList.sum_modify hmade.list hderef,hmade.units]
    omega
  · intro hb w kw' hkw'
    by_cases hw : w=toLower word
    · rw [hw,hself] at hkw'
      rw [← Option.some.inj hkw',hfilesr]
      exact List.ne_nil_of_mem ((hadd file).mpr (.inr rfl))
    · exact hreferenced hb w kw' ((hother w hw).symm.trans hkw')
  · intro f w
    unfold registered
    rw [mem_registerWord,hsame]
    apply or_congr (hwords f w)
    rw [@eq_comm _ w]

variable {b : Bool}

theorem Sound.congr {r' : φ → QString → Prop} (h : l.Sound toLower r b)
    (heq : ∀ f w,r f w ↔ r' f w) : l.Sound toLower r' b :=
  ⟨⟨h.kept.list,h.kept.entries,fun w f => (h.kept.refs w f).trans (heq f w),h.kept.units⟩,
    h.referenced,fun f w => (h.words f w).trans (heq f w)⟩

theorem foldlM_addWord (h : l.Sound toLower r b) (file : φ) (words : List QString) :
    ∃ l', words.foldlM (addWord toLower file) l=some l' ∧
      l'.Sound toLower (fun f w => r f w ∨ (f=file ∧ ∃ word∈words, toLower word=w)) b := by
  induction words generalizing l r with
  | nil => exact ⟨l,rfl,h.congr (by simp)⟩
  | cons word words ih =>
    obtain ⟨l₁,hone,hl₁⟩ := addWord_spec h.kept h.words h.referenced file word
    obtain ⟨l',hrest,hl'⟩ := ih hl₁
    refine ⟨l',by rw [List.foldlM_cons,hone]; exact hrest,hl'.congr ?_⟩
    intro f w
    simp only [List.mem_cons,exists_eq_or_imp]
    tauto

theorem Sound.rewind (h : l.Sound toLower r b) :
    Sound toLower { l with keywords := l.keywords.rewind } r b :=
  ⟨⟨IndexedList.rewind_consistent h.kept.list,h.kept.entries,h.kept.refs,h.kept.units⟩,
    h.referenced,h.words⟩

theorem addKeywords_spec (h : l.Sound toLower r b) (file : φ) (words : List QString) :
    ∃ l', addKeywords toLower file words l=some l' ∧
      l'.Sound toLower (fun f w => r f w ∨ (f=file ∧ ∃ word∈words, toLower word=w)) b := by
  have hstart : Sound toLower { l with wordsOf := registerFile file l.wordsOf } r b := by
    refine ⟨⟨h.kept.list,h.kept.entries,h.kept.refs,h.kept.units⟩,h.referenced,?_⟩
    intro f w
    rw [← h.words,registered,registered]
    unfold registerFile
    by_cases hf : f=file
    · subst hf
      rw [lookupKey_upsert_self rfl]
      rfl
    · rw [lookupKey_upsert_ne rfl hf]
  obtain ⟨l',hrun,hl'⟩ := foldlM_addWord hstart file words
  unfold addKeywords
  dsimp only
  rw [hrun,Option.map_some]
  split_ifs
  · exact ⟨_,rfl,hl'.rewind⟩
  · exact ⟨_,rfl,hl'⟩

/-- A file leaves the keyword of a word, and the keyword goes with its last file. -/
theorem removeWord_spec (h : l.Kept toLower r) (file : φ) (lower : QString) :
    ∃ l', removeWord toLower file l lower=some l' ∧
      l'.Kept toLower (fun f w => r f w ∧ ¬ (f=file ∧ w=lower)) ∧
      (l.Referenced toLower → l'.Referenced toLower) ∧ l'.wordsOf=l.wordsOf := by
  unfold removeWord
  cases hfind : l.keywords.find lower with
  | none =>
    refine ⟨l,rfl,⟨h.list,h.entries,?_,h.units⟩,id,rfl⟩
    intro w f
    rw [h.refs]
    refine (and_iff_left_of_imp ?_).symm
    rintro hr ⟨rfl,rfl⟩
    have hmem := (h.refs w f).mpr hr
    rw [refs,(IndexedList.find_eq_none h.list).mp hfind] at hmem
    cases hmem
  | some it =>
    obtain ⟨kw,hderef,hkey⟩ := (IndexedList.find_eq_some h.list).mp hfind
    have hold := IndexedList.lookup_isSome_of_deref h.list hderef
    rw [hkey] at hold
    obtain ⟨hok,hfiles,hkeyword⟩ := PublishKeyword.removeRef_spec (h.entries lower kw hold) file
    have hlower : lowerOf toLower (kw.removeRef file)=lowerOf toLower kw :=
      congrArg toLower hkeyword
    have hlist := IndexedList.modify_consistent h.list hderef hlower
    have hlookup := IndexedList.lookup_modify h.list hderef hlower
    have hself := (hlookup lower).trans (if_pos hkey.symm)
    have hother : ∀ w,w≠lower → _ := fun w hw =>
      (hlookup w).trans (if_neg (by rw [hkey]; exact hw))
    have hkept : Kept toLower { l with
        keywords := l.keywords.modify it (PublishKeyword.removeRef file)
        publishUnits := l.publishUnits+((kw.removeRef file).units-kw.units) }
        (fun f w => r f w ∧ ¬ (f=file ∧ w=lower)) := by
      refine ⟨hlist,?_,?_,?_⟩
      · intro w kw' hkw'
        by_cases hw : w=lower
        · rw [hw,hself] at hkw'
          rw [← Option.some.inj hkw']
          exact hok
        · exact h.entries w kw' ((hother w hw).symm.trans hkw')
      · intro w f
        rw [← h.refs]
        by_cases hw : w=lower
        · subst hw
          rw [refs,hself,refs,hold,Option.elim_some,Option.elim_some,hfiles]
          simp
        · rw [refs,hother w hw]
          simp [refs,hw]
      · dsimp only
        rw [IndexedList.sum_modify h.list hderef,h.units]
        omega
    dsimp only
    rw [hderef,Option.bind_some]
    have hderef' : (l.keywords.modify it (PublishKeyword.removeRef file)).deref it =
        some (kw.removeRef file) :=
      (IndexedList.deref_eq_some hlist).mpr
        ((IndexedList.mem_nodes_modify h.list hderef).mpr (.inl rfl))
    split_ifs with hcount
    · have hnone : (kw.removeRef file).files=[] := List.length_eq_zero_iff.mp hcount
      refine ⟨_,by rw [eraseKeyword,hderef',Option.map_some],
        dropKeyword_kept hkept hderef' hnone,?_,rfl⟩
      intro hreferenced w kw' hkw'
      have herase := IndexedList.lookup_erase hlist hderef' w
      unfold dropKeyword at hkw'
      rw [herase] at hkw'
      split_ifs at hkw' with hw
      rw [hlower,hkey] at hw
      exact hreferenced w kw' ((hother w hw).symm.trans hkw')
    · refine ⟨_,rfl,hkept,?_,rfl⟩
      intro hreferenced w kw' hkw'
      by_cases hw : w=lower
      · rw [hw,hself] at hkw'
        rw [← Option.some.inj hkw']
        exact fun hnil => hcount (List.length_eq_zero_iff.mpr hnil)
      · exact hreferenced w kw' ((hother w hw).symm.trans hkw')

theorem foldlM_removeWord (h : l.Kept toLower r) (file : φ) (words : List QString) :
    ∃ l', words.foldlM (removeWord toLower file) l=some l' ∧
      l'.Kept toLower (fun f w => r f w ∧ ¬ (f=file ∧ w∈words)) ∧
      (l.Referenced toLower → l'.Referenced toLower) ∧ l'.wordsOf=l.wordsOf := by
  induction words generalizing l r with
  | nil =>
    refine ⟨l,rfl,⟨h.list,h.entries,?_,h.units⟩,id,rfl⟩
    intro w f
    rw [h.refs]
    simp
  | cons lower words ih =>
    obtain ⟨l₁,hone,hkept,href,hsame⟩ := removeWord_spec h file lower
    obtain ⟨l',hrest,hkept',href',hsame'⟩ := ih hkept
    refine ⟨l',by rw [List.foldlM_cons,hone]; exact hrest,
      ⟨hkept'.list,hkept'.entries,?_,hkept'.units⟩,href' ∘ href,hsame'.trans hsame⟩
    intro w f
    rw [hkept'.refs,List.mem_cons]
    tauto

theorem removeKeywords_spec (h : l.Sound toLower r b) (file : φ) :
    ∃ l', removeKeywords toLower file l=some l' ∧
      l'.Sound toLower (fun f w => r f w ∧ f≠file) b := by
  unfold removeKeywords
  cases hfound : lookupKey Prod.fst file l.wordsOf with
  | none =>
    refine ⟨l,rfl,h.congr ?_⟩
    intro f w
    refine (and_iff_left_of_imp ?_).symm
    rintro hr rfl
    have hmem := (h.words f w).mpr hr
    rw [registered,hfound] at hmem
    cases hmem
  | some e =>
    have hall : l.registered file=e.2 := by
      rw [registered,hfound]
      rfl
    obtain ⟨l',hrun,hkept,href,hsame⟩ := foldlM_removeWord h.kept file e.2
    change ∃ l', (e.2.foldlM (removeWord toLower file) l).map _ = some l' ∧ _
    rw [hrun,Option.map_some]
    refine ⟨_,rfl,⟨hkept.list,hkept.entries,?_,hkept.units⟩,href ∘ h.referenced,?_⟩
    · intro w f
      apply (hkept.refs w f).trans
      apply and_congr_right
      intro hr
      constructor
      · rintro hnot rfl
        exact hnot ⟨rfl,hall ▸ (h.words f w).mpr hr⟩
      · rintro hne ⟨rfl,-⟩
        exact hne rfl
    · intro f w
      rw [registered,hsame,lookupKey_filter_ne]
      split_ifs with hf
      · simp [hf]
      · rw [← h.words]
        simp [registered,hf]

theorem getNextKeyword_spec (h : l.Sound toLower r b) :
    ∃ l', l.getNextKeyword=some l' ∧ l'.Sound toLower r b := by
  unfold getNextKeyword
  split_ifs with hempty
  · exact ⟨l,rfl,h⟩
  cases hcursor : l.keywords.cursor with
  | none => exact ⟨l,rfl,h⟩
  | some p =>
    have hlive : p∈l.keywords.addresses := h.kept.list.cursor p hcursor
    obtain ⟨kw,hderef⟩ := IndexedList.deref_isSome h.kept.list hlive
    have hstep : { l.keywords with cursor := l.keywords.after p } = l.keywords.advance := by
      rw [IndexedList.advance,IndexedList.stand,hcursor]
      rfl
    dsimp only
    rw [hderef,Option.map_some,hstep]
    exact ⟨_,rfl,⟨IndexedList.advance_consistent h.kept.list,h.kept.entries,h.kept.refs,
      h.kept.units⟩,h.referenced,h.words⟩

theorem step_sound (h : l.Sound toLower r b) (call : KeywordCall φ) :
    ∃ l', step toLower l call=some l' ∧
      l'.Sound toLower (register toLower r call) (purged b call) := by
  cases call with
  | addKeywords file words => exact addKeywords_spec h file words
  | removeKeywords file => exact removeKeywords_spec h file
  | removeAllKeywordReferences =>
    refine ⟨_,rfl,removeAllKeywordReferences_kept h.kept,nofun,?_⟩
    intro f w
    exact iff_of_false List.not_mem_nil id
  | purgeUnreferencedKeywords =>
    obtain ⟨l',hrun,hkept,href,hsame⟩ := purge_spec h.kept
    refine ⟨l',hrun,hkept,fun _ => href,?_⟩
    intro f w
    rw [registered,hsame]
    exact h.words f w
  | removeAllKeywords =>
    refine ⟨_,rfl,⟨IndexedList.clear_consistent _,nofun,?_,rfl⟩,fun _ => nofun,?_⟩
    · exact fun w f => iff_of_false List.not_mem_nil id
    · exact fun f w => iff_of_false List.not_mem_nil id
  | getNextKeyword => exact getNextKeyword_spec h
  | resetNextKeyword => exact ⟨_,rfl,h.rewind⟩
  | publishDueKeyword maxLook due published =>
    obtain ⟨l',looked,hrun,hwalked⟩ := publishDueKeyword_spec h.kept maxLook due published
    refine ⟨l',by rw [step,hrun,Option.map_some],hwalked.kept,
      fun hb => hwalked.referenced (h.referenced hb),?_⟩
    intro f w
    rw [registered,hwalked.words]
    exact h.words f w

theorem sound_init : (init : PublishKeywordList φ).Sound toLower (fun _ _ => False) true := by
  refine ⟨⟨IndexedList.empty_consistent,nofun,?_,rfl⟩,fun _ => nofun,?_⟩
  · exact fun w f => iff_of_false List.not_mem_nil id
  · exact fun f w => iff_of_false List.not_mem_nil id

/-- The words that the calls have registered. -/
def registeredBy (toLower : QString → QString) (calls : List (KeywordCall φ)) :
    φ → QString → Prop :=
  run (register toLower) (fun _ _ => False) calls

theorem run_sound (h : l.Sound toLower r b) (calls : List (KeywordCall φ)) :
    ∃ l', runChecked (step toLower) l calls=some l' ∧
      l'.Sound toLower (run (register toLower) r calls) (run purged b calls) := by
  induction calls generalizing l r b with
  | nil => exact ⟨l,rfl,h⟩
  | cons call calls ih =>
    obtain ⟨l₁,hone,h₁⟩ := step_sound h call
    obtain ⟨l',hrest,h'⟩ := ih h₁
    refine ⟨l',?_,h'⟩
    rw [runChecked_cons,hone]
    exact hrest

/-- The index, the words of the files, the sum of the work and the cursor are in step with the
list after all calls, and a lap comes by each keyword once. -/
theorem keywords_inStep (toLower : QString → QString) :
    ∀ calls : List (KeywordCall φ), ∃ l, runChecked (step toLower) init calls = some l ∧
      (l.keywords.entries.map (lowerOf toLower)).Nodup ∧
      (∀ w p, l.keywords.find w = some p ↔
        ∃ kw, l.keywords.deref p = some kw ∧ lowerOf toLower kw = w) ∧
      (∀ p kw, l.keywords.deref p = some kw → kw.files.Nodup ∧ kw.fileSet.Perm kw.files ∧
        ∀ f, f ∈ kw.files ↔ registeredBy toLower calls f (lowerOf toLower kw)) ∧
      (∀ f w, registeredBy toLower calls f w → ∃ p, l.keywords.find w = some p) ∧
      (run purged true calls = true → ∀ p kw, l.keywords.deref p = some kw → kw.files ≠ []) ∧
      l.publishUnits = (l.keywords.entries.map PublishKeyword.units).sum ∧
      (∀ p, l.keywords.cursor = some p → p ∈ l.keywords.addresses) ∧
      (∀ maxLook due, ∃ l' looked found, nextDueKeyword maxLook due l = some (l', looked, found) ∧
        (found = none → l.keywords.nodes.length ≤ maxLook →
          looked.Perm l.keywords.addresses)) ∧
      ∀ probes, ∃ l' looked, publishInTurn l probes = some (l', looked) ∧
        l'.keywords.addresses = l.keywords.addresses ∧
        ∀ k, k + l.keywords.nodes.length ≤ looked.length →
          ((looked.drop k).take l.keywords.nodes.length).Perm l.keywords.addresses := by
  intro calls
  obtain ⟨l,hrun,hsound⟩ :=
    run_sound (sound_init : (init : PublishKeywordList φ).Sound toLower _ _) calls
  have hlist := hsound.kept.list
  refine ⟨l,hrun,hlist.keys,fun w p => IndexedList.find_eq_some hlist,?_,?_,?_,
    hsound.kept.units,hlist.cursor,nextDueKeyword_spec hsound.kept,?_⟩
  · intro p kw hderef
    have hlookup := IndexedList.lookup_isSome_of_deref hlist hderef
    obtain ⟨hnodup,hset⟩ := hsound.kept.entries _ kw hlookup
    refine ⟨hnodup,hset,?_⟩
    intro f
    rw [registeredBy,← hsound.kept.refs,refs,hlookup]
    rfl
  · intro f w hr
    have hmem := (hsound.kept.refs w f).mpr hr
    unfold refs at hmem
    cases hlookup : l.keywords.lookup (lowerOf toLower) w with
    | none =>
      rw [hlookup] at hmem
      cases hmem
    | some kw =>
      obtain ⟨p,hfind,-⟩ := IndexedList.find_of_lookup hlist hlookup
      exact ⟨p,hfind⟩
  · intro hpurged p kw hderef
    exact hsound.referenced hpurged _ kw (IndexedList.lookup_isSome_of_deref hlist hderef)
  · intro probes
    obtain ⟨l',looked,hturn,hwalked⟩ := publishInTurn_spec hsound.kept probes
    exact ⟨l',looked,hturn,hwalked.addresses,fun k hk => hwalked.window hk⟩

end PublishKeywordList

end EmuleQt.Files
