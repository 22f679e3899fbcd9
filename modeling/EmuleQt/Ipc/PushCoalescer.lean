import EmuleQt.Framework.Run
import Mathlib.Algebra.Group.Nat.Defs

namespace EmuleQt.Ipc

open Framework

namespace PushCoalescer

/-- A window that is open; `timer` is the interval its timer was started with. -/
structure Window (B : Type*) where
  timer : Int
  pending : Option B
  windowMs : Int

/-- What has happened under a key. -/
inductive Occurrence (B : Type*) where
  | posted (key : UInt64) (build : B)
  | emitted (key : UInt64) (build : B)
  | elapsed (key : UInt64)

def Occurrence.key {B : Type*} : Occurrence B → UInt64
  | posted key _ => key
  | emitted key _ => key
  | elapsed key => key

@[simp] theorem Occurrence.posted_key {B : Type*} (key : UInt64) (build : B) :
    (Occurrence.posted key build).key=key := rfl

@[simp] theorem Occurrence.emitted_key {B : Type*} (key : UInt64) (build : B) :
    (Occurrence.emitted key build).key=key := rfl

@[simp] theorem Occurrence.elapsed_key {B : Type*} (key : UInt64) :
    (Occurrence.elapsed key : Occurrence B).key=key := rfl

/-- The open windows; `history` is what happened, newest first. -/
structure State (B : Type*) where
  windows : UInt64 → Option (Window B)
  history : List (Occurrence B)

/-- What the coalescer is called with. -/
inductive Call (B : Type*) where
  | post (type : Int32) (build : Option B) (windowMs : Int) (subKey : UInt32)
  | timeout (type : Int32) (subKey : UInt32)

/-- A call and what the slots on `ready` call in turn if it emits. -/
inductive Event (B : Type*) where
  | mk (call : Call B) (inside : List (Event B))

variable {B : Type*}

def makeKey (type : Int32) (subKey : UInt32) : UInt64 :=
  type.toUInt32.toUInt64 <<< 32 ||| subKey.toUInt64

def init : State B := ⟨fun _ => none, []⟩

def setWindow (key : UInt64) (window : Option (Window B)) (s : State B) : State B :=
  { s with windows := Function.update s.windows key window }

def emit (key : UInt64) (build : B) (s : State B) : State B :=
  { s with history := .emitted key build :: s.history }

def post (type : Int32) (build : Option B) (windowMs : Int) (subKey : UInt32) (s : State B) :
    State B :=
  match build with
  | none => s
  | some build =>
    let key := makeKey type subKey
    let s := { s with history := .posted key build :: s.history }
    if windowMs ≤ 0 then emit key build s
    else
      match s.windows key with
      | some window =>
        setWindow key (some { window with pending := some build, windowMs := windowMs }) s
      | none => emit key build (setWindow key (some ⟨windowMs, none, windowMs⟩) s)

def onWindowElapsed (key : UInt64) (s : State B) : State B :=
  match s.windows key with
  | none => s
  | some window =>
    let s := { s with history := .elapsed key :: s.history }
    match window.pending with
    | none => setWindow key none s
    | some build =>
      emit key build (setWindow key (some ⟨window.windowMs, none, window.windowMs⟩) s)

def step (s : State B) : Call B → State B
  | .post type build windowMs subKey => post type build windowMs subKey s
  | .timeout type subKey => onWindowElapsed (makeKey type subKey) s

/-- A signal was sent last. -/
def emits (s : State B) (call : Call B) : Bool :=
  match (step s call).history with
  | .emitted _ _ :: _ => (step s call).history.length > s.history.length
  | _ => false

mutual

/-- The calls an event comes to, in the order they are made: the slots run when all that the
call does is done. -/
def Event.calls (s : State B) : Event B → List (Call B)
  | .mk call inside =>
    if emits s call then call :: callsOf (step s call) inside else [call]

def callsOf (s : State B) : List (Event B) → List (Call B)
  | [] => []
  | e::es => e.calls s++callsOf (run step s (e.calls s)) es

end

mutual

/-- An event, with the nested calls made from inside the emission. -/
def Event.fire (s : State B) : Event B → State B
  | .mk call inside =>
    if emits s call then fireAll (step s call) inside else step s call

def fireAll (s : State B) : List (Event B) → State B
  | [] => s
  | e::es => fireAll (e.fire s) es

end

mutual

theorem fire_eq_run (s : State B) : (e : Event B) → e.fire s=run step s (e.calls s)
  | .mk call inside => by
    rw [Event.fire,Event.calls]
    split_ifs
    · rw [run_cons,fireAll_eq_run]
    · rfl

theorem fireAll_eq_run (s : State B) :
    (es : List (Event B)) → fireAll s es=run step s (callsOf s es)
  | [] => rfl
  | e::es => by
    rw [fireAll,callsOf,run_append,fireAll_eq_run,fire_eq_run]

end

/-- Since the last emission under the key. -/
def sinceEmission (key : UInt64) : List (Occurrence B) → List (Occurrence B)
  | [] => []
  | .emitted k b::h => if k=key then [] else .emitted k b::sinceEmission key h
  | .posted k b::h => .posted k b::sinceEmission key h
  | .elapsed k::h => .elapsed k::sinceEmission key h

def lastPosted (key : UInt64) : List (Occurrence B) → Option B
  | [] => none
  | .posted k b::h => if k=key then some b else lastPosted key h
  | .emitted _ _ :: h => lastPosted key h
  | .elapsed _ :: h => lastPosted key h

def lastEmitted (key : UInt64) : List (Occurrence B) → Option B
  | [] => none
  | .emitted k b::h => if k=key then some b else lastEmitted key h
  | .posted _ _ :: h => lastEmitted key h
  | .elapsed _ :: h => lastEmitted key h

/-- Every push was built by a builder posted since the last one of its key, and the window of
that one had elapsed. -/
def Paced (key : UInt64) : List (Occurrence B) → Prop
  | [] => True
  | .emitted k b :: h => (k = key → .posted key b ∈ sinceEmission key h ∧
      (lastEmitted key h ≠ none → .elapsed key ∈ sinceEmission key h)) ∧ Paced key h
  | .posted _ _ :: h => Paced key h
  | .elapsed _ :: h => Paced key h

section Keys

variable {type type' : Int32} {subKey subKey' : UInt32}

theorem makeKey_toNat (type : Int32) (subKey : UInt32) :
    (makeKey type subKey).toNat=type.toUInt32.toNat*2^32+subKey.toNat := by
  have htype := type.toUInt32.toNat_lt
  have hsub := subKey.toNat_lt
  have hshift : (type.toUInt32.toUInt64 <<< 32).toNat=type.toUInt32.toNat <<< 32 := by
    rw [UInt64.toNat_shiftLeft,UInt32.toNat_toUInt64]
    change type.toUInt32.toNat <<< 32%2^64=_
    exact Nat.mod_eq_of_lt (by omega)
  rw [makeKey,UInt64.toNat_or,hshift,UInt32.toNat_toUInt64,
    ← Nat.shiftLeft_add_eq_or_of_lt (by omega),Nat.shiftLeft_eq]

theorem makeKey_inj (h : makeKey type subKey=makeKey type' subKey') :
    type=type' ∧ subKey=subKey' := by
  have hnat := congrArg UInt64.toNat h
  rw [makeKey_toNat,makeKey_toNat] at hnat
  have hsub := subKey.toNat_lt
  have hsub' := subKey'.toNat_lt
  have htype : type.toUInt32=type'.toUInt32 := UInt32.toNat.inj (by omega)
  refine ⟨?_,UInt32.toNat.inj (by omega)⟩
  rw [← Int32.toInt32_toUInt32 type,htype,Int32.toInt32_toUInt32]

end Keys

def Call.key : Call B → UInt64
  | .post type _ _ subKey => makeKey type subKey
  | .timeout type subKey => makeKey type subKey

/-- A post asks for a window. -/
def Call.Positive : Call B → Bool
  | .post _ _ windowMs _ => decide (0 < windowMs)
  | .timeout _ _ => true

section Steps

variable {key : UInt64} {s t : State B} {call : Call B}

/-- What the coalescer has under a key, against what happened. -/
structure Holds (key : UInt64) (s : State B) : Prop where
  paced : Paced key s.history
  closed : s.windows key = none → lastEmitted key s.history = lastPosted key s.history ∧
    (lastEmitted key s.history ≠ none → .elapsed key ∈ sinceEmission key s.history)
  idle : ∀ window, s.windows key = some window → window.pending = none →
    lastEmitted key s.history = lastPosted key s.history
  pending : ∀ window build, s.windows key = some window → window.pending = some build →
    lastPosted key s.history = some build ∧ .posted key build ∈ sinceEmission key s.history

theorem holds_init : Holds key (init : State B) where
  paced := trivial
  closed _ := ⟨rfl,fun h => absurd rfl h⟩
  idle _ h := by simp [init] at h
  pending _ _ h := by simp [init] at h

theorem step_other (h : call.key≠key) (s : State B) : (step s call).windows key=s.windows key ∧
    ∃ more, (step s call).history=more++s.history ∧ ∀ o∈more,o.key≠key := by
  cases call with
  | post type build windowMs subKey =>
    have hkey : makeKey type subKey≠key := h
    cases build with
    | none => exact ⟨rfl,[],rfl,by simp⟩
    | some build =>
      simp only [step,post]
      split_ifs
      · exact ⟨rfl,[_,_],rfl,by simp [hkey]⟩
      · split
        · exact ⟨Function.update_of_ne hkey.symm _ _,[_],rfl,by simp [hkey]⟩
        · exact ⟨Function.update_of_ne hkey.symm _ _,[_,_],rfl,by
            simp [hkey]⟩
  | timeout type subKey =>
    have hkey : makeKey type subKey≠key := h
    simp only [step,onWindowElapsed]
    split
    · exact ⟨rfl,[],rfl,by simp⟩
    · split
      · exact ⟨Function.update_of_ne hkey.symm _ _,[_],rfl,by simp [hkey]⟩
      · exact ⟨Function.update_of_ne hkey.symm _ _,[_,_],rfl,by
          simp [hkey]⟩

theorem unmentioned {more h : List (Occurrence B)} (hmore : ∀ o∈more,o.key≠key) :
    lastPosted key (more++h)=lastPosted key h ∧
      lastEmitted key (more++h)=lastEmitted key h ∧
      sinceEmission key (more++h)=more++sinceEmission key h ∧
      (Paced key (more++h) ↔ Paced key h) := by
  induction more with
  | nil => exact ⟨rfl,rfl,rfl,.rfl⟩
  | cons o more ih =>
    obtain ⟨hposted,hemitted,hsince,hpaced⟩ := ih fun o ho => hmore o (List.mem_cons_of_mem _ ho)
    cases o <;> simp_all [lastPosted,lastEmitted,sinceEmission,Paced,Occurrence.key]

theorem Holds.step_other (h : Holds key s) (hkey : call.key≠key) : Holds key (step s call) := by
  obtain ⟨hwindow,more,hhistory,hmore⟩ := PushCoalescer.step_other hkey s
  obtain ⟨hposted,hemitted,hsince,hpaced⟩ := unmentioned (h := s.history) hmore
  refine ⟨?_,?_,?_,?_⟩
  all_goals rw [hhistory]
  · exact hpaced.mpr h.paced
  · rw [hwindow,hposted,hemitted,hsince]
    exact fun hnone => ⟨(h.closed hnone).1,fun hne =>
      List.mem_append_right more ((h.closed hnone).2 hne)⟩
  · rw [hwindow,hposted,hemitted]
    exact h.idle
  · rw [hwindow,hposted,hsince]
    exact fun window build hw hb => ⟨(h.pending window build hw hb).1,
      List.mem_append_right more (h.pending window build hw hb).2⟩

variable {type : Int32} {subKey : UInt32}

theorem Holds.emit {build : B} (hpaced : Paced key s.history)
    (hposted : lastPosted key s.history=some build)
    (hmem : .posted key build∈sinceEmission key s.history)
    (helapsed : lastEmitted key s.history≠none → .elapsed key∈sinceEmission key s.history)
    (hopen : ∃ window, s.windows key=some window ∧ window.pending=none) :
    Holds key (PushCoalescer.emit key build s) where
  paced := ⟨fun _ => ⟨hmem,helapsed⟩,hpaced⟩
  closed hnone := by
    obtain ⟨window,hwindow,_⟩ := hopen
    simp [PushCoalescer.emit,hwindow] at hnone
  idle _ _ _ := by simp [PushCoalescer.emit,lastEmitted,lastPosted,hposted]
  pending w b hw hb := by
    obtain ⟨window,hwindow,hpending⟩ := hopen
    obtain rfl := Option.some.inj (hwindow.symm.trans hw)
    simp [hpending] at hb

theorem Holds.post (h : Holds (makeKey type subKey) s) {windowMs : Int} (hpos : 0<windowMs)
    (build : Option B) : Holds (makeKey type subKey) (post type build windowMs subKey s) := by
  cases build with
  | none => exact h
  | some build =>
    simp only [PushCoalescer.post,if_neg (Int.not_le.mpr hpos)]
    cases hwindow : s.windows (makeKey type subKey) with
    | none =>
      obtain ⟨_,helapsed⟩ := h.closed hwindow
      refine Holds.emit (s := setWindow (makeKey type subKey) (some ⟨windowMs,none,windowMs⟩)
        { s with history := .posted (makeKey type subKey) build::s.history }) h.paced ?_ ?_ ?_
        ⟨_,Function.update_self _ _ _,rfl⟩
      · simp [setWindow,lastPosted]
      · exact List.mem_cons_self
      · exact fun hne => List.mem_cons_of_mem _ (helapsed hne)
    | some window =>
      have hpaced : Paced (makeKey type subKey)
          (.posted (makeKey type subKey) build::s.history) := h.paced
      refine ⟨hpaced,fun hnone => ?_,fun w hw hidle => ?_,fun w b hw hb => ?_⟩
      · simp [setWindow] at hnone
      · simp only [setWindow,Function.update_self,Option.some.injEq] at hw
        simp [← hw] at hidle
      · simp only [setWindow,Function.update_self,Option.some.injEq] at hw
        obtain rfl : build=b := by simpa [← hw] using hb
        exact ⟨by simp [setWindow,lastPosted],List.mem_cons_self⟩

theorem Holds.onWindowElapsed (h : Holds key s) : Holds key (onWindowElapsed key s) := by
  unfold PushCoalescer.onWindowElapsed
  cases hwindow : s.windows key with
  | none => exact h
  | some window =>
    dsimp only
    cases hpending : window.pending with
    | none =>
      have hidle := h.idle window hwindow hpending
      have hpaced : Paced key (.elapsed key::s.history) := h.paced
      refine ⟨hpaced,fun _ => ⟨hidle,fun _ => List.mem_cons_self⟩,fun w hw => ?_,
        fun w b hw => ?_⟩
      all_goals simp [setWindow] at hw
    | some build =>
      obtain ⟨hposted,hmem⟩ := h.pending window build hwindow hpending
      exact Holds.emit (s := setWindow key (some ⟨window.windowMs,none,window.windowMs⟩)
        { s with history := .elapsed key::s.history }) h.paced hposted
        (List.mem_cons_of_mem _ hmem) (fun _ => List.mem_cons_self)
        ⟨_,Function.update_self _ _ _,rfl⟩

theorem Holds.step (h : Holds key s) (hpos : call.Positive) : Holds key (step s call) := by
  by_cases hkey : call.key=key
  · subst hkey
    cases call with
    | post type build windowMs subKey => exact h.post (of_decide_eq_true hpos) build
    | timeout type subKey => exact h.onWindowElapsed
  · exact h.step_other hkey

/-- The key's window is as in a run of its own calls alone, and so is what happened under it. -/
structure Alone (key : UInt64) (s t : State B) : Prop where
  window : s.windows key = t.windows key
  history : s.history.filter (fun o => o.key == key) = t.history

theorem Alone.step_other (h : Alone key s t) (hkey : call.key≠key) :
    Alone key (step s call) t := by
  obtain ⟨hwindow,more,hhistory,hmore⟩ := PushCoalescer.step_other hkey s
  refine ⟨hwindow.trans h.window,?_⟩
  rw [hhistory,List.filter_append,h.history,List.filter_eq_nil_iff.mpr,List.nil_append]
  exact fun o ho => by simpa using hmore o ho

theorem Alone.step_same (h : Alone call.key s t) : Alone call.key (step s call) (step t call) := by
  cases call with
  | post type build windowMs subKey =>
    have hwindow : s.windows (makeKey type subKey)=t.windows (makeKey type subKey) := h.window
    have hhistory : s.history.filter (fun o => o.key == makeKey type subKey)=t.history :=
      h.history
    cases build with
    | none => exact h
    | some build =>
      simp only [step,PushCoalescer.post,← hwindow]
      split_ifs
      · exact ⟨hwindow,by simp [PushCoalescer.emit,Call.key,hhistory]⟩
      · cases s.windows (makeKey type subKey) with
        | none => exact ⟨by simp [PushCoalescer.emit,setWindow,Call.key],by
            simp [PushCoalescer.emit,setWindow,Call.key,hhistory]⟩
        | some window => exact ⟨by simp [setWindow,Call.key],by
            simp [setWindow,Call.key,hhistory]⟩
  | timeout type subKey =>
    have hwindow : s.windows (makeKey type subKey)=t.windows (makeKey type subKey) := h.window
    have hhistory : s.history.filter (fun o => o.key == makeKey type subKey)=t.history :=
      h.history
    simp only [step,PushCoalescer.onWindowElapsed,← hwindow]
    cases s.windows (makeKey type subKey) with
    | none => exact h
    | some window =>
      dsimp only
      cases window.pending with
      | none => exact ⟨by simp [setWindow,Call.key],by
          simp [setWindow,Call.key,hhistory]⟩
      | some build => exact ⟨by simp [PushCoalescer.emit,setWindow,Call.key],by
          simp [PushCoalescer.emit,setWindow,Call.key,hhistory]⟩

theorem alone_run (calls : List (Call B)) (h : Alone key s t) :
    Alone key (run step s calls) (run step t (calls.filter fun call => call.key == key)) := by
  induction calls generalizing s t with
  | nil => exact h
  | cons call calls ih =>
    by_cases hkey : call.key=key
    · rw [List.filter_cons_of_pos (by simpa using hkey)]
      subst hkey
      exact ih h.step_same
    · rw [List.filter_cons_of_neg (by simpa using hkey)]
      exact ih (h.step_other hkey)

end Steps

/-- Whatever is called, also from inside the slots: under every key a push goes out at most once
in a window and is the freshest there is when no window is open; and every key is served as it
would be alone. -/
theorem paced_per_key (events : List (Event B))
    (hpos : ∀ call ∈ callsOf init events, call.Positive) (type : Int32) (subKey : UInt32) :
    let key := makeKey type subKey
    let s := fireAll init events
    (∀ type' subKey',makeKey type' subKey'=key → type'=type ∧ subKey'=subKey) ∧
      Paced key s.history ∧
      (s.windows key=none → lastEmitted key s.history=lastPosted key s.history ∧
        ∀ build windowMs,0<windowMs → (post type (some build) windowMs subKey s).history =
          .emitted key build :: .posted key build::s.history) ∧
      Alone key s (run step init ((callsOf init events).filter fun call => call.key == key)) := by
  intro key s
  have hrun : s=run step init (callsOf init events) := fireAll_eq_run init events
  have hstep : ∀ s call,Holds key s → (call : Call B).Positive → Holds key (step s call) :=
    fun s call h hcall => h.step hcall
  have hs : Holds key s := hrun ▸ run_invariant hstep holds_init (along_of_forall init hpos)
  refine ⟨fun _ _ => makeKey_inj,hs.paced,fun hnone => ⟨(hs.closed hnone).1,?_⟩,?_⟩
  · intro build windowMs hwindow
    simp only [post,if_neg (Int.not_le.mpr hwindow)]
    rw [show s.windows (makeKey type subKey)=none from hnone]
    rfl
  · rw [hrun]
    exact alone_run (callsOf init events) ⟨rfl,rfl⟩

/-- A slot on the first push posts the same key again, which has to wait for the timer. -/
theorem paced_per_key_nested :
    let events : List (Event Nat) := [.mk (.post 430 (some 1) 250 7)
      [.mk (.post 430 (some 2) 250 7) [],.mk (.post 411 (some 3) 250 0) []],
      .mk (.timeout 430 7) []]
    (fireAll init events).history=[.emitted (makeKey 430 7) 2,.elapsed (makeKey 430 7),
      .emitted (makeKey 411 0) 3,.posted (makeKey 411 0) 3,.posted (makeKey 430 7) 2,
      .emitted (makeKey 430 7) 1,.posted (makeKey 430 7) 1] ∧
    Paced (makeKey 430 7) (fireAll init events).history := by
  refine ⟨?_,(paced_per_key _ ?_ 430 7).2.1⟩
  · rfl
  · decide

end PushCoalescer

end EmuleQt.Ipc
