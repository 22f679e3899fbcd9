import EmuleQt.Client.BlockPackets
import Mathlib.Data.List.Nodup

namespace EmuleQt.Client

open Framework

/-- What clients and part files know of each other: the file a client is asked for and the others
it could be asked for, the sources of a file and the clients that list it as another file. -/
structure SourceLinks (C F : Type*) where
  reqFile : C → Option F
  downloadState : C → DownloadState
  otherRequests : C → List F
  otherNoNeeded : C → List F
  pendingBlocks : C → List Reservation
  a4afSrcList : F → List C
  srcList : F → List C
  downloadingSources : F → List C
  requestedBlocks : F → List Reservation

namespace SourceLinks

variable {C F : Type*} [DecidableEq C] [DecidableEq F]

/-- `std::list::remove`. -/
def removeValue {α : Type*} [DecidableEq α] (a : α) (l : List α) : List α :=
  l.filter fun b => decide (b≠a)

def setOthers (client : C) (requests noNeeded : List F) (s : SourceLinks C F) :
    SourceLinks C F :=
  { s with
    otherRequests := Function.update s.otherRequests client requests
    otherNoNeeded := Function.update s.otherNoNeeded client noNeeded }

def setA4afSrcList (file : F) (clients : List C) (s : SourceLinks C F) : SourceLinks C F :=
  { s with a4afSrcList := Function.update s.a4afSrcList file clients }

def addRequestForAnotherFile (client : C) (file : F) (s : SourceLinks C F) :
    Bool × SourceLinks C F :=
  if file ∈ s.otherNoNeeded client then (false, s)
  else if file ∈ s.otherRequests client then (false, s)
  else
    let s := s.setOthers client (s.otherRequests client ++ [file]) (s.otherNoNeeded client)
    (true, if client ∈ s.a4afSrcList file then s
      else s.setA4afSrcList file (s.a4afSrcList file ++ [client]))

def addDownloadingSource (file : F) (client : C) (s : SourceLinks C F) : SourceLinks C F :=
  if client ∈ s.downloadingSources file then s
  else
    { s with
      downloadingSources :=
        Function.update s.downloadingSources file (s.downloadingSources file ++ [client]) }

def removeDownloadingSource (file : F) (client : C) (s : SourceLinks C F) : SourceLinks C F :=
  { s with
    downloadingSources :=
      Function.update s.downloadingSources file ((s.downloadingSources file).erase client) }

def addSource (file : F) (client : C) (s : SourceLinks C F) : SourceLinks C F :=
  if client ∈ s.srcList file then s
  else { s with srcList := Function.update s.srcList file (s.srcList file ++ [client]) }

def removeSource (file : F) (client : C) (s : SourceLinks C F) : SourceLinks C F :=
  if client ∈ s.srcList file then
    { s with srcList := Function.update s.srcList file ((s.srcList file).erase client) }
      |>.removeDownloadingSource file client
  else s

def clearDownloadBlockRequests (client : C) (s : SourceLinks C F) : SourceLinks C F :=
  let s := match s.reqFile client with
    | some file =>
      { s with
        requestedBlocks := Function.update s.requestedBlocks file
          ((s.pendingBlocks client).foldl List.erase (s.requestedBlocks file)) }
    | none => s
  { s with pendingBlocks := Function.update s.pendingBlocks client [] }

/-- A file counts the sources it is being downloaded from. -/
def trackDownloading (client : C) (state : DownloadState) (s : SourceLinks C F) :
    SourceLinks C F :=
  match s.reqFile client with
  | some file =>
    if state = .Downloading then s.addDownloadingSource file client
    else if s.downloadState client = .Downloading then s.removeDownloadingSource file client
    else s
  | none => s

def leaveDownloading (client : C) (s : SourceLinks C F) : SourceLinks C F :=
  if s.downloadState client = .Downloading then s.clearDownloadBlockRequests client else s

def setDownloadState (client : C) (state : DownloadState) (s : SourceLinks C F) :
    SourceLinks C F :=
  if state = s.downloadState client then s
  else
    let s := (s.trackDownloading client state).leaveDownloading client
    { s with downloadState := Function.update s.downloadState client state }

def setReqFile (client : C) (file : Option F) (s : SourceLinks C F) : SourceLinks C F :=
  { s with reqFile := Function.update s.reqFile client file }

/-- The client is taken off the new file's list of clients with other files, and put on the old
one's unless it leaves that for good. -/
def exchange (client : C) (oldFile swapTo : F) (removeCompletely : Bool) (s : SourceLinks C F) :
    SourceLinks C F :=
  let s := s.setA4afSrcList swapTo (removeValue client (s.a4afSrcList swapTo))
  let s :=
    if removeCompletely then s
    else
      let s := s.setA4afSrcList oldFile (s.a4afSrcList oldFile ++ [client])
      if s.downloadState client = .NoNeededParts then
        s.setOthers client (s.otherRequests client) (s.otherNoNeeded client ++ [oldFile])
      else s.setOthers client (s.otherRequests client ++ [oldFile]) (s.otherNoNeeded client)
  s.setOthers client (removeValue swapTo (s.otherRequests client))
    (removeValue swapTo (s.otherNoNeeded client))

def doSwap (client : C) (swapTo : F) (removeCompletely : Bool) (s : SourceLinks C F) :
    Bool × SourceLinks C F :=
  match s.reqFile client with
  | none => (false, s)
  | some oldFile =>
    if swapTo = oldFile then (false, s)
    else
      let s := (s.removeSource oldFile client).exchange client oldFile swapTo removeCompletely
      let s := (s.setDownloadState client .None).clearDownloadBlockRequests client
      (true, (s.setReqFile client (some swapTo)).addSource swapTo client)

def removeFileFromOtherLists (client : C) (s : SourceLinks C F) (file : F) : SourceLinks C F :=
  s.setOthers client (removeValue file (s.otherRequests client))
      (removeValue file (s.otherNoNeeded client))
    |>.setA4afSrcList file (removeValue client (s.a4afSrcList file))

def removeFromAllOtherLists (client : C) (s : SourceLinks C F) : SourceLinks C F :=
  let s := (s.otherRequests client).foldl (removeFileFromOtherLists client) s
  (s.otherNoNeeded client).foldl (removeFileFromOtherLists client) s

/-- What a client that goes away does: it leaves its file's sources, then all the other lists. -/
def leaveFiles (client : C) (s : SourceLinks C F) : SourceLinks C F :=
  let s := match s.reqFile client with
    | some file => (s.removeSource file client).setReqFile client none
    | none => s
  s.removeFromAllOtherLists client

def requestBlocks (client : C) (blocks : List Reservation) (s : SourceLinks C F) :
    SourceLinks C F :=
  match s.reqFile client with
  | some file =>
    { s with
      pendingBlocks := Function.update s.pendingBlocks client (s.pendingBlocks client ++ blocks)
      requestedBlocks := Function.update s.requestedBlocks file
        (s.requestedBlocks file ++ blocks) }
  | none => s

/-- The calls on the lists, and what else happens to a download meanwhile. -/
inductive Call (C F : Type*) where
  | addRequestForAnotherFile (client : C) (file : F)
  | doSwap (client : C) (swapTo : F) (removeCompletely : Bool)
  | removeFileFromOtherLists (client : C) (file : F)
  | removeFromAllOtherLists (client : C)
  | setDownloadState (client : C) (state : DownloadState)
  | requestBlocks (client : C) (blocks : List Reservation)

def step (s : SourceLinks C F) : Call C F → SourceLinks C F
  | .addRequestForAnotherFile client file => (s.addRequestForAnotherFile client file).2
  | .doSwap client swapTo removeCompletely => (s.doSwap client swapTo removeCompletely).2
  | .removeFileFromOtherLists client file => s.removeFileFromOtherLists client file
  | .removeFromAllOtherLists client => s.removeFromAllOtherLists client
  | .setDownloadState client state => s.setDownloadState client state
  | .requestBlocks client blocks => s.requestBlocks client blocks

/-- The file a client is asked for is never added to its others. -/
def AddsOther (s : SourceLinks C F) : Call C F → Prop
  | .addRequestForAnotherFile client file => s.reqFile client≠some file
  | _ => True

/-- Clients that are sources of the files they are asked for, and of no others yet. -/
structure Start (s : SourceLinks C F) : Prop where
  otherRequests : ∀ c, s.otherRequests c = []
  otherNoNeeded : ∀ c, s.otherNoNeeded c = []
  a4afSrcList : ∀ f, s.a4afSrcList f = []
  srcList : ∀ c f, c ∈ s.srcList f → s.reqFile c = some f
  srcList_nodup : ∀ f, (s.srcList f).Nodup

/-- Both sides of the relation say the same. -/
structure Linked (s : SourceLinks C F) : Prop where
  both : ∀ c f, c ∈ s.a4afSrcList f ↔ f ∈ s.otherRequests c ∨ f ∈ s.otherNoNeeded c
  clients_nodup : ∀ f, (s.a4afSrcList f).Nodup
  files_nodup : ∀ c, (s.otherRequests c ++ s.otherNoNeeded c).Nodup
  not_requested : ∀ c f, s.reqFile c = some f →
    f ∉ s.otherRequests c ∧ f ∉ s.otherNoNeeded c

/-- A file's sources are asked for it. -/
structure Sourced (s : SourceLinks C F) : Prop where
  source : ∀ c f, c ∈ s.srcList f → s.reqFile c = some f
  sources_nodup : ∀ f, (s.srcList f).Nodup

section Frames

variable {s : SourceLinks C F} {client : C} {file : F}

theorem mem_removeValue {α : Type*} [DecidableEq α] {a b : α} {l : List α} :
    b∈removeValue a l ↔ b∈l ∧ b≠a := by simp [removeValue]

/-- The lists of other files on both sides, and the files asked for, are as they were. -/
structure SameOthers (s t : SourceLinks C F) : Prop where
  requests : t.otherRequests=s.otherRequests
  noNeeded : t.otherNoNeeded=s.otherNoNeeded
  clients : t.a4afSrcList=s.a4afSrcList
  reqFile : t.reqFile=s.reqFile

omit [DecidableEq C] [DecidableEq F] in
theorem SameOthers.trans {t u : SourceLinks C F} (h : SameOthers s t) (h' : SameOthers t u) :
    SameOthers s u :=
  ⟨h'.requests.trans h.requests,h'.noNeeded.trans h.noNeeded,h'.clients.trans h.clients,
    h'.reqFile.trans h.reqFile⟩

theorem sameOthers_removeSource : SameOthers s (s.removeSource file client) := by
  unfold removeSource
  split_ifs <;> exact ⟨rfl,rfl,rfl,rfl⟩

theorem sameOthers_clearDownloadBlockRequests :
    SameOthers s (s.clearDownloadBlockRequests client) := by
  unfold clearDownloadBlockRequests
  cases s.reqFile client <;> exact ⟨rfl,rfl,rfl,rfl⟩

theorem sameOthers_trackDownloading (state : DownloadState) :
    SameOthers s (s.trackDownloading client state) := by
  unfold trackDownloading addDownloadingSource
  split
  · split_ifs <;> exact ⟨rfl,rfl,rfl,rfl⟩
  · exact ⟨rfl,rfl,rfl,rfl⟩

theorem sameOthers_leaveDownloading : SameOthers s (s.leaveDownloading client) := by
  unfold leaveDownloading
  split_ifs
  · exact sameOthers_clearDownloadBlockRequests
  · exact ⟨rfl,rfl,rfl,rfl⟩

theorem sameOthers_setDownloadState (state : DownloadState) :
    SameOthers s (s.setDownloadState client state) := by
  unfold setDownloadState
  split_ifs
  · exact ⟨rfl,rfl,rfl,rfl⟩
  · have hleft : SameOthers s ((s.trackDownloading client state).leaveDownloading client) :=
      (sameOthers_trackDownloading state).trans sameOthers_leaveDownloading
    exact ⟨hleft.requests,hleft.noNeeded,hleft.clients,hleft.reqFile⟩

theorem sameOthers_requestBlocks (blocks : List Reservation) :
    SameOthers s (s.requestBlocks client blocks) := by
  unfold requestBlocks
  cases s.reqFile client <;> exact ⟨rfl,rfl,rfl,rfl⟩

omit [DecidableEq C] [DecidableEq F] in
theorem Linked.of_same {t : SourceLinks C F} (h : Linked s) (hst : SameOthers s t) : Linked t := by
  refine ⟨?_,?_,?_,?_⟩
  · rw [hst.requests,hst.noNeeded,hst.clients]
    exact h.both
  · rw [hst.clients]
    exact h.clients_nodup
  · rw [hst.requests,hst.noNeeded]
    exact h.files_nodup
  · rw [hst.requests,hst.noNeeded,hst.reqFile]
    exact h.not_requested

end Frames

section Links

variable {s : SourceLinks C F} {client c : C} {file f oldFile swapTo : F}

/-- A client and a file enter each other's lists. -/
def link (client : C) (file : F) (noNeeded : Bool) (s : SourceLinks C F) : SourceLinks C F :=
  (if noNeeded then
      s.setOthers client (s.otherRequests client) (s.otherNoNeeded client ++ [file])
    else s.setOthers client (s.otherRequests client ++ [file]) (s.otherNoNeeded client))
    |>.setA4afSrcList file (s.a4afSrcList file ++ [client])

theorem link_others (client : C) (file : F) (noNeeded : Bool) (s : SourceLinks C F) (c : C) :
    ((s.link client file noNeeded).otherRequests c ++
      (s.link client file noNeeded).otherNoNeeded c).Perm
    (if c=client then file::(s.otherRequests c++s.otherNoNeeded c)
      else s.otherRequests c++s.otherNoNeeded c) := by
  by_cases hc : c=client
  · subst hc
    cases noNeeded with
    | true =>
      simp only [link,setOthers,setA4afSrcList,Function.update_self,if_true]
      rw [← List.append_assoc]
      exact List.perm_append_singleton _ _
    | false =>
      simp only [link,setOthers,setA4afSrcList,Function.update_self,if_true,
        Bool.false_eq_true,if_false,List.append_assoc]
      exact List.perm_middle
  · cases noNeeded <;>
      simp [link,setOthers,setA4afSrcList,hc]

theorem Linked.link (h : Linked s) (noNeeded : Bool)
    (hnew : file∉s.otherRequests client ∧ file∉s.otherNoNeeded client)
    (hreq : s.reqFile client≠some file) : Linked (s.link client file noNeeded) := by
  have hclient : client∉s.a4afSrcList file := fun hmem =>
    ((h.both client file).mp hmem).elim hnew.1 hnew.2
  have hothers := link_others client file noNeeded s
  have hmem : ∀ c f,(f∈(s.link client file noNeeded).otherRequests c ∨
      f∈(s.link client file noNeeded).otherNoNeeded c) ↔
      (c=client ∧ f=file) ∨ f∈s.otherRequests c ∨ f∈s.otherNoNeeded c := by
    intro c f
    rw [← List.mem_append,(hothers c).mem_iff]
    split_ifs with hc <;> simp [hc]
  refine ⟨fun c f => ?_,fun f => ?_,fun c => ?_,fun c f hf => ?_⟩
  · rw [hmem,← h.both]
    by_cases hf : f=file
    · subst hf
      simp [SourceLinks.link,setA4afSrcList,or_comm]
    · have hkept : (s.link client file noNeeded).a4afSrcList f=s.a4afSrcList f := by
        cases noNeeded <;>
          simp [SourceLinks.link,setA4afSrcList,setOthers,Function.update_of_ne hf]
      simp [hkept,hf]
  · by_cases hf : f=file
    · subst hf
      simpa [SourceLinks.link,setA4afSrcList] using
        List.Nodup.append (h.clients_nodup f) (List.nodup_singleton client) (by simpa using hclient)
    · have hkept : (s.link client file noNeeded).a4afSrcList f=s.a4afSrcList f := by
        cases noNeeded <;>
          simp [SourceLinks.link,setA4afSrcList,setOthers,Function.update_of_ne hf]
      rw [hkept]
      exact h.clients_nodup f
  · rw [(hothers c).nodup_iff]
    split_ifs with hc
    · subst hc
      exact List.nodup_cons.mpr ⟨by simpa using hnew,h.files_nodup c⟩
    · exact h.files_nodup c
  · have hkept : (s.link client file noNeeded).reqFile=s.reqFile := by
      cases noNeeded <;> rfl
    rw [hkept] at hf
    rw [← not_or,hmem,not_or,not_or]
    refine ⟨?_,h.not_requested c f hf⟩
    rintro ⟨rfl,rfl⟩
    exact hreq hf

theorem Linked.removeFileFromOtherLists (h : Linked s) (client : C) (file : F) :
    Linked (s.removeFileFromOtherLists client file) := by
  have hmem : ∀ c f,(f∈(s.removeFileFromOtherLists client file).otherRequests c ∨
      f∈(s.removeFileFromOtherLists client file).otherNoNeeded c) ↔
      (f∈s.otherRequests c ∨ f∈s.otherNoNeeded c) ∧ ¬ (c=client ∧ f=file) := by
    intro c f
    by_cases hc : c=client
    · subst hc
      simp only [SourceLinks.removeFileFromOtherLists,setOthers,setA4afSrcList,
        Function.update_self,mem_removeValue,true_and]
      tauto
    · simp [SourceLinks.removeFileFromOtherLists,setOthers,setA4afSrcList,hc]
  refine ⟨fun c f => ?_,fun f => ?_,fun c => ?_,fun c f hf => ?_⟩
  · rw [hmem,← h.both]
    by_cases hf : f=file
    · subst hf
      simp [SourceLinks.removeFileFromOtherLists,setOthers,setA4afSrcList,mem_removeValue]
    · simp [SourceLinks.removeFileFromOtherLists,setOthers,setA4afSrcList,hf]
  · by_cases hf : f=file
    · subst hf
      simpa [SourceLinks.removeFileFromOtherLists,setA4afSrcList,removeValue] using
        (h.clients_nodup f).filter fun c => decide (c≠client)
    · simpa [SourceLinks.removeFileFromOtherLists,setOthers,setA4afSrcList,
        Function.update_of_ne hf] using h.clients_nodup f
  · by_cases hc : c=client
    · subst hc
      simpa [SourceLinks.removeFileFromOtherLists,setOthers,setA4afSrcList,removeValue] using
        (h.files_nodup c).filter fun f => decide (f≠file)
    · simpa [SourceLinks.removeFileFromOtherLists,setOthers,setA4afSrcList,
        Function.update_of_ne hc] using h.files_nodup c
  · rw [← not_or,hmem]
    exact fun hin => hin.1.elim (h.not_requested c f hf).1 (h.not_requested c f hf).2

theorem Linked.addRequestForAnotherFile (h : Linked s) (hfile : s.reqFile client≠some file) :
    Linked (s.addRequestForAnotherFile client file).2 := by
  unfold SourceLinks.addRequestForAnotherFile
  by_cases hno : file∈s.otherNoNeeded client
  · rwa [if_pos hno]
  rw [if_neg hno]
  by_cases hyes : file∈s.otherRequests client
  · rwa [if_pos hyes]
  rw [if_neg hyes]
  have hclient : client∉s.a4afSrcList file := fun hmem =>
    ((h.both client file).mp hmem).elim hyes hno
  have hlink : (if client∈s.a4afSrcList file then
        s.setOthers client (s.otherRequests client++[file]) (s.otherNoNeeded client)
      else (s.setOthers client (s.otherRequests client++[file]) (s.otherNoNeeded client)
        ).setA4afSrcList file (s.a4afSrcList file++[client]))=s.link client file false :=
    if_neg hclient
  have hlinked := h.link false ⟨hyes,hno⟩ hfile
  rw [← hlink] at hlinked
  exact hlinked

omit [DecidableEq F] in
theorem Linked.setReqFile (h : Linked s)
    (hfile : file∉s.otherRequests client ∧ file∉s.otherNoNeeded client) :
    Linked (s.setReqFile client (some file)) := by
  refine ⟨h.both,h.clients_nodup,h.files_nodup,fun c f hf => ?_⟩
  by_cases hc : c=client
  · subst hc
    obtain rfl : file=f := by simpa [SourceLinks.setReqFile] using hf
    exact hfile
  · exact h.not_requested c f (by simpa [SourceLinks.setReqFile,hc] using hf)

/-- What a swap comes to for the lists of other files. -/
def swapped (client : C) (oldFile swapTo : F) (removeCompletely : Bool) (s : SourceLinks C F) :
    SourceLinks C F :=
  let t := (s.removeFileFromOtherLists client swapTo).setReqFile client (some swapTo)
  if removeCompletely then t
  else t.link client oldFile (decide (s.downloadState client = .NoNeededParts))

theorem exchange_same (hne : swapTo≠oldFile) (removeCompletely : Bool) :
    SameOthers (s.swapped client oldFile swapTo removeCompletely)
      ((s.exchange client oldFile swapTo removeCompletely).setReqFile client (some swapTo)) := by
  have hold : ∀ l : List F, removeValue swapTo (l++[oldFile]) =
      removeValue swapTo l++[oldFile] := fun l => by
    simp [removeValue,Ne.symm hne]
  have hclients : Function.update s.a4afSrcList swapTo
      (removeValue client (s.a4afSrcList swapTo)) oldFile=s.a4afSrcList oldFile :=
    Function.update_of_ne (Ne.symm hne) _ _
  unfold swapped exchange
  cases removeCompletely with
  | true => exact ⟨rfl,rfl,rfl,rfl⟩
  | false =>
    by_cases hstate : s.downloadState client = .NoNeededParts
    all_goals
      refine ⟨?_,?_,?_,?_⟩ <;>
      simp [hstate,link,SourceLinks.removeFileFromOtherLists,setOthers,setA4afSrcList,
        SourceLinks.setReqFile,hold,hclients]

theorem Linked.swapped (h : Linked s) (hold : s.reqFile client=some oldFile)
    (hne : swapTo≠oldFile) (removeCompletely : Bool) :
    Linked (s.swapped client oldFile swapTo removeCompletely) := by
  have hfree : swapTo∉(s.removeFileFromOtherLists client swapTo).otherRequests client ∧
      swapTo∉(s.removeFileFromOtherLists client swapTo).otherNoNeeded client := by
    simp [SourceLinks.removeFileFromOtherLists,setOthers,setA4afSrcList,mem_removeValue]
  have hnext := (h.removeFileFromOtherLists client swapTo).setReqFile hfree
  unfold SourceLinks.swapped
  split_ifs
  · exact hnext
  · refine hnext.link _ ?_ (by simpa [SourceLinks.setReqFile] using hne)
    have hreq := h.not_requested client oldFile hold
    simp [SourceLinks.removeFileFromOtherLists,setOthers,setA4afSrcList,SourceLinks.setReqFile,
      mem_removeValue,hreq]

theorem sameOthers_setReqFile_addSource {t : SourceLinks C F} (h : SameOthers s t)
    (client : C) (file : F) : SameOthers (s.setReqFile client (some file))
      ((t.setReqFile client (some file)).addSource file client) := by
  unfold addSource
  have hreq : Function.update t.reqFile client (some file) =
      Function.update s.reqFile client (some file) := by rw [h.reqFile]
  split_ifs <;> exact ⟨h.requests,h.noNeeded,h.clients,hreq⟩

theorem Linked.doSwap (h : Linked s) (client : C) (swapTo : F) (removeCompletely : Bool) :
    Linked (s.doSwap client swapTo removeCompletely).2 := by
  unfold SourceLinks.doSwap
  cases hold : s.reqFile client with
  | none => exact h
  | some oldFile =>
    dsimp only
    split_ifs with hne
    · exact h
    · have hremoved : SameOthers s (s.removeSource oldFile client) := sameOthers_removeSource
      have hreq : (s.removeSource oldFile client).reqFile client=some oldFile := by
        rw [hremoved.reqFile,hold]
      have hswapped := (h.of_same hremoved).swapped hreq hne removeCompletely
      have hstate : SameOthers
          ((s.removeSource oldFile client).exchange client oldFile swapTo removeCompletely)
          ((((s.removeSource oldFile client).exchange client oldFile swapTo
            removeCompletely).setDownloadState client .None).clearDownloadBlockRequests client) :=
        (sameOthers_setDownloadState .None).trans sameOthers_clearDownloadBlockRequests
      exact (hswapped.of_same (exchange_same hne removeCompletely)).of_same
        (sameOthers_setReqFile_addSource hstate client swapTo)

theorem Linked.foldl (h : Linked s) (client : C) (files : List F) :
    Linked (files.foldl (SourceLinks.removeFileFromOtherLists client) s) := by
  induction files generalizing s with
  | nil => exact h
  | cons file files ih => exact ih (h.removeFileFromOtherLists client file)

theorem Linked.removeFromAllOtherLists (h : Linked s) (client : C) :
    Linked (s.removeFromAllOtherLists client) := (h.foldl client _).foldl client _

theorem foldl_others (files : List F) (s : SourceLinks C F) (client : C) (f : F) :
    (f∈(files.foldl (removeFileFromOtherLists client) s).otherRequests client →
      f∈s.otherRequests client ∧ f∉files) ∧
    (f∈(files.foldl (removeFileFromOtherLists client) s).otherNoNeeded client →
      f∈s.otherNoNeeded client ∧ f∉files) := by
  induction files generalizing s with
  | nil => simp
  | cons file files ih =>
    obtain ⟨hrequests,hnoNeeded⟩ := ih (s.removeFileFromOtherLists client file)
    have hrequest : (s.removeFileFromOtherLists client file).otherRequests client =
        removeValue file (s.otherRequests client) := by
      simp [removeFileFromOtherLists,setOthers,setA4afSrcList]
    have hno : (s.removeFileFromOtherLists client file).otherNoNeeded client =
        removeValue file (s.otherNoNeeded client) := by
      simp [removeFileFromOtherLists,setOthers,setA4afSrcList]
    rw [hrequest,mem_removeValue] at hrequests
    rw [hno,mem_removeValue] at hnoNeeded
    simp only [List.foldl_cons,List.mem_cons,not_or]
    tauto

theorem removeFromAllOtherLists_a4afSrcList (h : Linked s) (client : C) (f : F) :
    client∉(s.removeFromAllOtherLists client).a4afSrcList f := by
  rw [(h.removeFromAllOtherLists client).both]
  have hfirst := foldl_others (s.otherRequests client) s client f
  have hsecond := foldl_others
    (((s.otherRequests client).foldl (SourceLinks.removeFileFromOtherLists client) s
      ).otherNoNeeded client)
    ((s.otherRequests client).foldl (SourceLinks.removeFileFromOtherLists client) s) client f
  rintro (hf | hf)
  · have hmem := hfirst.1 (hsecond.1 hf).1
    exact hmem.2 hmem.1
  · exact (hsecond.2 hf).2 (hsecond.2 hf).1

end Links

section Sources

variable {s t : SourceLinks C F} {client : C} {file swapTo : F}

omit [DecidableEq C] [DecidableEq F] in
theorem Sourced.of_eq (h : Sourced s) (hsrc : t.srcList=s.srcList)
    (hreq : t.reqFile=s.reqFile) : Sourced t :=
  ⟨by rw [hsrc,hreq]; exact h.source,by rw [hsrc]; exact h.sources_nodup⟩

theorem Sourced.removeSource (h : Sourced s) (file : F) (client : C) :
    Sourced (s.removeSource file client) := by
  unfold SourceLinks.removeSource
  split_ifs
  · refine ⟨fun c f hc => h.source c f ?_,fun f => ?_⟩
    all_goals by_cases hf : f=file
    · subst hf
      exact List.mem_of_mem_erase (by simpa [removeDownloadingSource] using hc)
    · simpa [removeDownloadingSource,hf] using hc
    · subst hf
      simpa [removeDownloadingSource] using (h.sources_nodup f).erase client
    · simpa [removeDownloadingSource,hf] using h.sources_nodup f
  · exact h

theorem not_mem_removeSource (h : Sourced s) (hreq : s.reqFile client=some file) (f : F) :
    client∉(s.removeSource file client).srcList f := by
  intro hc
  have hmem := (h.removeSource file client).source client f hc
  rw [sameOthers_removeSource.reqFile,hreq] at hmem
  obtain rfl := Option.some.inj hmem
  unfold SourceLinks.removeSource at hc
  split_ifs at hc with hsource
  · exact (h.sources_nodup file).not_mem_erase (by simpa [removeDownloadingSource] using hc)
  · exact hsource hc

theorem clearDownloadBlockRequests_srcList :
    (s.clearDownloadBlockRequests client).srcList=s.srcList := by
  unfold clearDownloadBlockRequests
  cases s.reqFile client <;> rfl

theorem setDownloadState_srcList (state : DownloadState) :
    (s.setDownloadState client state).srcList=s.srcList := by
  have htrack : (s.trackDownloading client state).srcList=s.srcList := by
    unfold trackDownloading addDownloadingSource
    split
    · split_ifs <;> rfl
    · rfl
  unfold setDownloadState leaveDownloading
  split_ifs
  · rfl
  · exact clearDownloadBlockRequests_srcList.trans htrack
  · exact htrack

theorem exchange_srcList (oldFile : F) (removeCompletely : Bool) :
    (s.exchange client oldFile swapTo removeCompletely).srcList=s.srcList := by
  unfold exchange
  dsimp only
  split_ifs <;> rfl

theorem Sourced.addSource (h : Sourced s) (hno : ∀ f,client∉s.srcList f) :
    Sourced ((s.setReqFile client (some file)).addSource file client) := by
  have hsrc : ((s.setReqFile client (some file)).addSource file client).srcList =
      Function.update s.srcList file (s.srcList file++[client]) := by
    simp [SourceLinks.addSource,SourceLinks.setReqFile,hno file]
  have hreq : ((s.setReqFile client (some file)).addSource file client).reqFile =
      Function.update s.reqFile client (some file) := by
    unfold SourceLinks.addSource
    split_ifs <;> rfl
  refine ⟨fun c f hc => ?_,fun f => ?_⟩
  · rw [hsrc] at hc
    rw [hreq]
    by_cases hcc : c=client
    · subst hcc
      by_cases hf : f=file
      · simp [hf]
      · exact absurd (by simpa [hf] using hc) (hno f)
    · rw [Function.update_of_ne hcc]
      apply h.source
      by_cases hf : f=file
      · subst hf
        simpa [hcc] using hc
      · simpa [hf] using hc
  · rw [hsrc]
    by_cases hf : f=file
    · subst hf
      simpa using List.Nodup.append (h.sources_nodup f) (List.nodup_singleton client)
        (by simpa using hno f)
    · simpa [hf] using h.sources_nodup f

theorem Sourced.doSwap (h : Sourced s) (client : C) (swapTo : F) (removeCompletely : Bool) :
    Sourced (s.doSwap client swapTo removeCompletely).2 := by
  unfold SourceLinks.doSwap
  cases hold : s.reqFile client with
  | none => exact h
  | some oldFile =>
    dsimp only
    split_ifs with hne
    · exact h
    · have hsrc : ((((s.removeSource oldFile client).exchange client oldFile swapTo
          removeCompletely).setDownloadState client .None).clearDownloadBlockRequests
          client).srcList=(s.removeSource oldFile client).srcList := by
        rw [clearDownloadBlockRequests_srcList,setDownloadState_srcList,exchange_srcList]
      have hreq : ((((s.removeSource oldFile client).exchange client oldFile swapTo
          removeCompletely).setDownloadState client .None).clearDownloadBlockRequests
          client).reqFile=(s.removeSource oldFile client).reqFile := by
        rw [sameOthers_clearDownloadBlockRequests.reqFile,
          (sameOthers_setDownloadState .None).reqFile]
        unfold exchange
        dsimp only
        split_ifs <;> rfl
      refine ((h.removeSource oldFile client).of_eq hsrc hreq).addSource fun f => ?_
      rw [hsrc]
      exact not_mem_removeSource h hold f

end Sources

section Runs

variable {s : SourceLinks C F} {client : C}

omit [DecidableEq C] [DecidableEq F] in
theorem Start.linked (h : Start s) : Linked s where
  both c f := by simp [h.a4afSrcList,h.otherRequests,h.otherNoNeeded]
  clients_nodup f := by simp [h.a4afSrcList]
  files_nodup c := by simp [h.otherRequests,h.otherNoNeeded]
  not_requested c f _ := by simp [h.otherRequests,h.otherNoNeeded]

theorem foldl_removeFile_sources (client : C) (files : List F) (s : SourceLinks C F) :
    (files.foldl (removeFileFromOtherLists client) s).srcList=s.srcList ∧
      (files.foldl (removeFileFromOtherLists client) s).reqFile=s.reqFile := by
  induction files generalizing s with
  | nil => exact ⟨rfl,rfl⟩
  | cons file files ih => exact ih (s.removeFileFromOtherLists client file)

theorem removeFromAllOtherLists_sources (client : C) (s : SourceLinks C F) :
    (s.removeFromAllOtherLists client).srcList=s.srcList ∧
      (s.removeFromAllOtherLists client).reqFile=s.reqFile := by
  have hfirst := foldl_removeFile_sources client (s.otherRequests client) s
  have hsecond := foldl_removeFile_sources client
    (((s.otherRequests client).foldl (removeFileFromOtherLists client) s).otherNoNeeded client)
    ((s.otherRequests client).foldl (removeFileFromOtherLists client) s)
  exact ⟨hsecond.1.trans hfirst.1,hsecond.2.trans hfirst.2⟩

theorem linked_step (h : Linked s ∧ Sourced s) (call : Call C F) (hok : AddsOther s call) :
    Linked (step s call) ∧ Sourced (step s call) := by
  cases call with
  | addRequestForAnotherFile client file =>
    refine ⟨h.1.addRequestForAnotherFile hok,?_⟩
    simp only [step,SourceLinks.addRequestForAnotherFile]
    split_ifs <;> exact h.2.of_eq rfl rfl
  | doSwap client swapTo removeCompletely =>
    exact ⟨h.1.doSwap client swapTo removeCompletely,h.2.doSwap client swapTo removeCompletely⟩
  | removeFileFromOtherLists client file =>
    exact ⟨h.1.removeFileFromOtherLists client file,h.2.of_eq rfl rfl⟩
  | removeFromAllOtherLists client =>
    have hsame := removeFromAllOtherLists_sources client s
    exact ⟨h.1.removeFromAllOtherLists client,h.2.of_eq hsame.1 hsame.2⟩
  | setDownloadState client state =>
    exact ⟨h.1.of_same (sameOthers_setDownloadState state),
      h.2.of_eq (setDownloadState_srcList state) (sameOthers_setDownloadState state).reqFile⟩
  | requestBlocks client blocks =>
    have hsame : SameOthers s (s.requestBlocks client blocks) := sameOthers_requestBlocks blocks
    refine ⟨h.1.of_same hsame,h.2.of_eq ?_ hsame.reqFile⟩
    simp only [step,requestBlocks]
    cases s.reqFile client <;> rfl

theorem doSwap_pendingBlocks {swapTo : F} {removeCompletely : Bool}
    (h : (s.doSwap client swapTo removeCompletely).1=true) :
    (s.doSwap client swapTo removeCompletely).2.pendingBlocks client=[] := by
  have hcleared : ∀ t : SourceLinks C F,
      (t.clearDownloadBlockRequests client).pendingBlocks client=[] := fun t => by
    unfold clearDownloadBlockRequests
    cases t.reqFile client <;> simp
  unfold SourceLinks.doSwap addSource at *
  cases hold : s.reqFile client with
  | none => simp [hold] at h
  | some oldFile =>
    simp only [hold] at h ⊢
    by_cases hne : swapTo=oldFile
    · simp [hne] at h
    · rw [if_neg hne]
      split_ifs <;> exact hcleared _

theorem leaveFiles_lists (h : Linked s) (hs : Sourced s) (client : C) (f : F) :
    client∉(s.leaveFiles client).a4afSrcList f ∧ client∉(s.leaveFiles client).srcList f := by
  unfold leaveFiles
  cases hreq : s.reqFile client with
  | none =>
    refine ⟨removeFromAllOtherLists_a4afSrcList h client f,fun hc => ?_⟩
    rw [(removeFromAllOtherLists_sources client s).1] at hc
    simp [hs.source client f hc] at hreq
  | some file =>
    have hremoved : Linked (s.removeSource file client) := h.of_same sameOthers_removeSource
    have hlinked : Linked ((s.removeSource file client).setReqFile client none) := by
      refine ⟨hremoved.both,hremoved.clients_nodup,hremoved.files_nodup,fun c g hg => ?_⟩
      by_cases hc : c=client
      · simp [SourceLinks.setReqFile,hc] at hg
      · exact hremoved.not_requested c g (by simpa [SourceLinks.setReqFile,hc] using hg)
    refine ⟨removeFromAllOtherLists_a4afSrcList hlinked client f,fun hc => ?_⟩
    rw [(removeFromAllOtherLists_sources client _).1] at hc
    exact not_mem_removeSource hs hreq f hc

/-- Over any run both sides of the relation say the same, a swap leaves nothing pending, and a
client that is taken off all lists is on none. -/
theorem lists_linked (start : SourceLinks C F) (hstart : Start start) (calls : List (Call C F))
    (hok : Along step AddsOther start calls) :
    let s := run step start calls
    (∀ c f,c∈s.a4afSrcList f ↔ f∈s.otherRequests c ∨ f∈s.otherNoNeeded c) ∧
      (∀ f,(s.a4afSrcList f).Nodup) ∧
      (∀ c,(s.otherRequests c++s.otherNoNeeded c).Nodup) ∧
      (∀ c f,s.reqFile c=some f → f∉s.otherRequests c ∧ f∉s.otherNoNeeded c) ∧
      (∀ c swapTo removeCompletely, (s.doSwap c swapTo removeCompletely).1=true →
        (s.doSwap c swapTo removeCompletely).2.pendingBlocks c=[]) ∧
      (∀ c f,c∉(s.removeFromAllOtherLists c).a4afSrcList f) ∧
      ∀ c f,c∉(s.leaveFiles c).a4afSrcList f ∧ c∉(s.leaveFiles c).srcList f := by
  intro s
  have hstep : ∀ (t : SourceLinks C F) call, Linked t ∧ Sourced t → AddsOther t call →
      Linked (step t call) ∧ Sourced (step t call) := fun t call h hcall => linked_step h call hcall
  have hsourced : Sourced start := ⟨hstart.srcList,hstart.srcList_nodup⟩
  have hrun : Linked s ∧ Sourced s := run_invariant hstep ⟨hstart.linked,hsourced⟩ hok
  obtain ⟨hlinked,hsourced⟩ := hrun
  exact ⟨hlinked.both,hlinked.clients_nodup,hlinked.files_nodup,hlinked.not_requested,
    fun _ _ _ => doSwap_pendingBlocks,removeFromAllOtherLists_a4afSrcList hlinked,
    leaveFiles_lists hlinked hsourced⟩

/-- One client that is asked for file 0. -/
def asked : SourceLinks Unit Nat where
  reqFile := fun _ => some 0
  downloadState := fun _ => .NoNeededParts
  otherRequests := fun _ => []
  otherNoNeeded := fun _ => []
  pendingBlocks := fun _ => []
  a4afSrcList := fun _ => []
  srcList := fun f => if f = 0 then [()] else []
  downloadingSources := fun _ => []
  requestedBlocks := fun _ => []

theorem lists_linked_swap :
    (run step asked [.addRequestForAnotherFile () 1, .doSwap () 1 false]).otherNoNeeded () = [0] ∧
      ∀ f, () ∉ ((run step asked [.addRequestForAnotherFile () 1, .doSwap () 1 false]
        ).leaveFiles ()).a4afSrcList f := by
  have hstart : Start asked := by
    refine ⟨fun _ => rfl,fun _ => rfl,fun _ => rfl,fun c f hc => ?_,fun f => ?_⟩
    · by_cases hf : f=0
      · rw [hf]
        rfl
      · simp [asked,hf] at hc
    · by_cases hf : f=0 <;> simp [asked,hf]
  have hok : Along step AddsOther asked [.addRequestForAnotherFile () 1,.doSwap () 1 false] :=
    ⟨by simp [AddsOther,asked],trivial,trivial⟩
  obtain ⟨_,_,_,_,_,_,hleft⟩ := lists_linked asked hstart _ hok
  exact ⟨by decide,fun f => (hleft () f).1⟩

end Runs

end SourceLinks

end EmuleQt.Client
