import EmuleQt.Framework.Run
import EmuleQt.Kademlia.Contact
import Mathlib.Data.List.Nodup

namespace EmuleQt.Kademlia

open Framework

def kUDPFWCheckClientsNeeded : Nat := 2

structure TestContact where
  clientID : KadUInt128
  ip : UInt32
  version : UInt8
  deriving DecidableEq

/-- A client that has been asked, with the number of the check it was asked in. -/
structure UsedClient where
  contact : TestContact
  answered : Bool
  check : Nat

/-- What Kad knows of its own ports. -/
structure KadPorts where
  internKadPort : UInt16
  externalKadPort : UInt16
  /-- The external port is still being looked for. -/
  findExternKadPort : Bool

/-- What a call finds outside the tester. -/
structure TesterEnv where
  now : Nat
  shouldSkipFirewallChecks : Bool
  prefs : Option KadPorts
  isOurselves : TestContact → Bool
  isKnown : TestContact → Bool
  doRequestFirewallCheckUDP : TestContact → Bool

/-- The tester; `check` numbers the checks, and `answers` are those counted in this one. -/
structure FirewallTester where
  firewalledUDP : Bool
  firewalledLastStateUDP : Bool
  isFWVerifiedUDP : Bool
  nodeSearchStarted : Bool
  timedOut : Bool
  fwChecksRunning : Nat
  fwChecksFinished : Nat
  testStart : Nat
  lastSucceededTime : Nat
  lastVerdictTime : Nat
  possibleTestClients : List TestContact
  usedTestClients : List UsedClient
  useExternKadPort : Bool
  check : Nat
  answers : List (UInt32 × Bool)

namespace FirewallTester

def init : FirewallTester where
  firewalledUDP := false
  firewalledLastStateUDP := false
  isFWVerifiedUDP := false
  nodeSearchStarted := false
  timedOut := false
  fwChecksRunning := 0
  fwChecksFinished := 0
  testStart := 0
  lastSucceededTime := 0
  lastVerdictTime := 0
  possibleTestClients := []
  usedTestClients := []
  useExternKadPort := true
  check := 0
  answers := []

def isFWCheckUDPRunning (env : TesterEnv) (s : FirewallTester) : Bool :=
  decide (s.fwChecksFinished < kUDPFWCheckClientsNeeded) && !env.shouldSkipFirewallChecks

def getUDPCheckClientsNeeded (s : FirewallTester) : Bool :=
  decide (s.fwChecksRunning + s.fwChecksFinished < kUDPFWCheckClientsNeeded)

def isUsable (env : TesterEnv) (s : FirewallTester) (contact : TestContact) : Bool :=
  !env.isOurselves contact && !env.isKnown contact &&
    !s.usedTestClients.any fun used => decide (used.contact.ip = contact.ip)

/-- The first of the contacts that can be asked is; those before it are dropped. -/
def askNext (env : TesterEnv) (s : FirewallTester) : List TestContact → FirewallTester
  | [] => { s with possibleTestClients := [] }
  | contact::rest =>
    if s.isUsable env contact && env.doRequestFirewallCheckUDP contact then
      { s with
        possibleTestClients := rest
        usedTestClients := s.usedTestClients++[⟨contact,false,s.check⟩]
        fwChecksRunning := s.fwChecksRunning+1 }
    else askNext env s rest

def queryNextClient (env : TesterEnv) (s : FirewallTester) : FirewallTester :=
  if !s.isFWCheckUDPRunning env || env.prefs.any (·.findExternKadPort) then s
  else if !s.getUDPCheckClientsNeeded || s.possibleTestClients.isEmpty then s
  else s.askNext env s.possibleTestClients

/-- A port the answer came in on that is known to be ours. -/
def learnPort (env : TesterEnv) (incomingPort : UInt16) (s : FirewallTester) : FirewallTester :=
  match env.prefs with
  | none => s
  | some prefs =>
    if incomingPort=prefs.internKadPort then { s with useExternKadPort := false }
    else if incomingPort≠0 ∧ incomingPort=prefs.externalKadPort then
      { s with useExternKadPort := true }
    else s

/-- One positive result is enough. -/
def decideOpen (env : TesterEnv) (incomingPort : UInt16) (s : FirewallTester) : FirewallTester :=
  { s with
    testStart := 0
    firewalledUDP := false
    isFWVerifiedUDP := true
    timedOut := false
    fwChecksFinished := kUDPFWCheckClientsNeeded
    fwChecksRunning := 0
    possibleTestClients := []
    lastSucceededTime := env.now
    lastVerdictTime := env.now
    firewalledLastStateUDP := false }
    |>.learnPort env incomingPort

def decideFirewalled (env : TesterEnv) (s : FirewallTester) : FirewallTester :=
  { s with
    testStart := 0
    firewalledUDP := true
    isFWVerifiedUDP := true
    timedOut := false
    lastVerdictTime := env.now
    firewalledLastStateUDP := true
    possibleTestClients := [] }

/-- An answer that counts: its slot is released, and the next client asked unless all is decided. -/
def countAnswer (env : TesterEnv) (succeeded testCancelled : Bool) (fromIP : UInt32)
    (incomingPort : UInt16) (s : FirewallTester) : FirewallTester :=
  let s := { s with fwChecksRunning := s.fwChecksRunning-1 }
  if testCancelled then s.queryNextClient env
  else
    let s := { s with
      fwChecksFinished := s.fwChecksFinished+1
      answers := s.answers++[(fromIP, succeeded)] }
    if succeeded then s.decideOpen env incomingPort
    else if s.fwChecksFinished≥kUDPFWCheckClientsNeeded then s.decideFirewalled env
    else s.queryNextClient env

/-- A second answer just after the verdict, on the port of our own that is to be preferred. -/
def correctsPort (env : TesterEnv) (incomingPort : UInt16) (s : FirewallTester) : Bool :=
  !s.isFWCheckUDPRunning env && !s.firewalledUDP && s.isFWVerifiedUDP &&
    decide (env.now<s.lastSucceededTime+10) &&
    env.prefs.any (fun prefs => decide (incomingPort=prefs.internKadPort)) && s.useExternKadPort

/-- The first client with the address has answered. -/
def markAnswered (fromIP : UInt32) : List UsedClient → List UsedClient
  | [] => []
  | used::rest =>
    if used.contact.ip=fromIP then { used with answered := true } :: rest
    else used::markAnswered fromIP rest

def setUDPFWCheckResult (env : TesterEnv) (succeeded testCancelled : Bool) (fromIP : UInt32)
    (incomingPort : UInt16) (s : FirewallTester) : FirewallTester :=
  match s.usedTestClients.find? fun used => decide (used.contact.ip = fromIP) with
  | none => s
  | some used =>
    if s.correctsPort env incomingPort then { s with useExternKadPort := false }
    else if used.answered then s
    else
      let s := { s with usedTestClients := markAnswered fromIP s.usedTestClients }
      if s.isFWCheckUDPRunning env then
        s.countAnswer env succeeded testCancelled fromIP incomingPort
      else s

def reCheckFirewallUDP (env : TesterEnv) (setUnverified : Bool) (s : FirewallTester) :
    FirewallTester :=
  { s with
    fwChecksRunning := 0
    fwChecksFinished := 0
    lastSucceededTime := 0
    testStart := env.now
    timedOut := false
    firewalledLastStateUDP := s.firewalledUDP
    isFWVerifiedUDP := s.isFWVerifiedUDP && !setUnverified
    possibleTestClients := []
    nodeSearchStarted := true
    check := s.check + 1
    answers := [] }

def addPossibleTestContact (contact : TestContact) (s : FirewallTester) : FirewallTester :=
  if contact.version ≤ KADEMLIA_VERSION5_48a then s
  else if s.possibleTestClients.length ≥ 20 then s
  else { s with possibleTestClients := s.possibleTestClients ++ [contact] }

def reset (env : TesterEnv) (s : FirewallTester) : FirewallTester :=
  { s with
    firewalledUDP := false
    firewalledLastStateUDP := false
    isFWVerifiedUDP := false
    nodeSearchStarted := false
    timedOut := false
    fwChecksRunning := 0
    fwChecksFinished := 0
    testStart := 0
    lastSucceededTime := 0
    lastVerdictTime := 0
    possibleTestClients := []
    useExternKadPort := if env.prefs.isSome then true else s.useExternKadPort
    check := s.check + 1
    answers := [] }

def connected (env : TesterEnv) (s : FirewallTester) : FirewallTester :=
  if !s.nodeSearchStarted && s.isFWCheckUDPRunning env then
    { s with nodeSearchStarted := true, testStart := env.now, timedOut := false }
  else s

inductive Call where
  | setUDPFWCheckResult (env : TesterEnv) (succeeded testCancelled : Bool) (fromIP : UInt32)
      (incomingPort : UInt16)
  | reCheckFirewallUDP (env : TesterEnv) (setUnverified : Bool)
  | addPossibleTestContact (contact : TestContact)
  | reset (env : TesterEnv)
  | connected (env : TesterEnv)
  | queryNextClient (env : TesterEnv)

def step (s : FirewallTester) : Call → FirewallTester
  | .setUDPFWCheckResult env succeeded testCancelled fromIP incomingPort =>
    s.setUDPFWCheckResult env succeeded testCancelled fromIP incomingPort
  | .reCheckFirewallUDP env setUnverified => s.reCheckFirewallUDP env setUnverified
  | .addPossibleTestContact contact => s.addPossibleTestContact contact
  | .reset env => s.reset env
  | .connected env => s.connected env
  | .queryNextClient env => s.queryNextClient env

/-- The client was asked in this check and has not answered. -/
def isAwaited (s : FirewallTester) (used : UsedClient) : Bool :=
  decide (used.check=s.check) && !used.answered

/-- The counters say what this check has come to, and the verdict follows from its answers. -/
structure Sound (s : FirewallTester) : Prop where
  addresses_nodup : (s.usedTestClients.map (·.contact.ip)).Nodup
  check_le : ∀ used ∈ s.usedTestClients, used.check ≤ s.check
  answers_nodup : (s.answers.map Prod.fst).Nodup
  answered : ∀ a ∈ s.answers, ∃ used ∈ s.usedTestClients,
    used.contact.ip = a.1 ∧ used.check = s.check ∧ used.answered = true
  running : s.fwChecksFinished < kUDPFWCheckClientsNeeded →
    s.fwChecksRunning = s.usedTestClients.countP s.isAwaited ∧
      s.fwChecksRunning + s.fwChecksFinished ≤ kUDPFWCheckClientsNeeded ∧
      s.fwChecksFinished = s.answers.length ∧ ∀ a ∈ s.answers, a.2 = false
  decided : kUDPFWCheckClientsNeeded ≤ s.fwChecksFinished →
    s.fwChecksFinished = kUDPFWCheckClientsNeeded ∧ s.fwChecksRunning = 0 ∧
      ((s.firewalledUDP = false ∧ ∃ ip, (ip, true) ∈ s.answers) ∨
        (s.firewalledUDP = true ∧ s.answers.length = kUDPFWCheckClientsNeeded ∧
          ∀ a ∈ s.answers, a.2 = false))

/-- While a check is under way, an answer that has not been heard before is to this check, and
is not overheard because checks are being skipped. -/
def InCheck (s : FirewallTester) : Call → Prop
  | .setUDPFWCheckResult env _ _ fromIP _ => ∀ used∈s.usedTestClients,
    used.contact.ip=fromIP → used.answered=false →
      s.fwChecksFinished<kUDPFWCheckClientsNeeded →
        used.check=s.check ∧ env.shouldSkipFirewallChecks=false
  | _ => True

section Steps

variable {s : FirewallTester} {env : TesterEnv} {fromIP : UInt32} {used : UsedClient}

theorem markAnswered_split {l : List UsedClient}
    (h : l.find? (fun used => decide (used.contact.ip=fromIP))=some used) :
    ∃ before after, l=before++used::after ∧ used.contact.ip=fromIP ∧
      markAnswered fromIP l=before ++ { used with answered := true } :: after := by
  induction l with
  | nil => simp at h
  | cons first rest ih =>
    by_cases hfirst : first.contact.ip=fromIP
    · obtain rfl : first=used := by simpa [hfirst] using h
      exact ⟨[],rest,rfl,hfirst,by simp [markAnswered,hfirst]⟩
    · obtain ⟨before,after,hl,hip,hmark⟩ := ih (by simpa [hfirst] using h)
      exact ⟨first::before,after,by rw [hl]; rfl,hip,by
        rw [markAnswered,if_neg hfirst,hmark]; rfl⟩

theorem sound_init : Sound init where
  addresses_nodup := .nil
  check_le _ h := absurd h List.not_mem_nil
  answers_nodup := .nil
  answered _ h := absurd h List.not_mem_nil
  running _ := ⟨rfl,by decide,rfl,fun _ h => absurd h List.not_mem_nil⟩
  decided h := absurd h (by decide)

theorem Sound.newCheck (h : Sound s) {t : FirewallTester}
    (hused : t.usedTestClients=s.usedTestClients) (hcheck : t.check=s.check+1)
    (hanswers : t.answers=[]) (hrunning : t.fwChecksRunning=0)
    (hfinished : t.fwChecksFinished=0) : Sound t where
  addresses_nodup := hused ▸ h.addresses_nodup
  check_le used hu := by
    have hle := h.check_le used (hused ▸ hu)
    omega
  answers_nodup := by simp [hanswers]
  answered a ha := by simp [hanswers] at ha
  running _ := by
    refine ⟨?_,by simp [hrunning,hfinished],by simp [hfinished,hanswers],by simp [hanswers]⟩
    rw [hrunning,eq_comm,List.countP_eq_zero,hused]
    intro used hu
    have hle := h.check_le used hu
    simp only [isAwaited,hcheck,Bool.and_eq_true,decide_eq_true_eq,not_and]
    omega
  decided hd := absurd hd (by simp [hfinished,kUDPFWCheckClientsNeeded])

theorem Sound.of_eq (h : Sound s) {t : FirewallTester}
    (hused : t.usedTestClients=s.usedTestClients) (hcheck : t.check=s.check)
    (hanswers : t.answers=s.answers) (hrunning : t.fwChecksRunning=s.fwChecksRunning)
    (hfinished : t.fwChecksFinished=s.fwChecksFinished)
    (hverdict : t.firewalledUDP=s.firewalledUDP) : Sound t := by
  have hawaited : t.isAwaited=s.isAwaited := by
    funext used
    rw [isAwaited,isAwaited,hcheck]
  refine ⟨?_,?_,?_,?_,?_,?_⟩
  · rw [hused]; exact h.addresses_nodup
  · rw [hused,hcheck]; exact h.check_le
  · rw [hanswers]; exact h.answers_nodup
  · rw [hanswers,hused,hcheck]; exact h.answered
  · rw [hfinished,hrunning,hused,hawaited,hanswers]; exact h.running
  · rw [hfinished,hrunning,hverdict,hanswers]; exact h.decided

theorem sound_askNext (h : Sound s) (hneeded : s.getUDPCheckClientsNeeded=true)
    (l : List TestContact) : Sound (s.askNext env l) := by
  have hroom : s.fwChecksRunning+s.fwChecksFinished<kUDPFWCheckClientsNeeded :=
    of_decide_eq_true hneeded
  induction l with
  | nil => exact h.of_eq rfl rfl rfl rfl rfl rfl
  | cons contact rest ih =>
    unfold askNext
    split_ifs with hask
    · obtain ⟨husable,_⟩ := Bool.and_eq_true_iff.mp hask
      have hnew : ∀ used∈s.usedTestClients,used.contact.ip≠contact.ip := by
        simpa [isUsable] using (Bool.and_eq_true_iff.mp husable).2
      obtain ⟨hrunning,_,hfinished,hnegative⟩ := h.running (by omega)
      refine ⟨?_,?_,h.answers_nodup,?_,fun _ => ⟨?_,?_,hfinished,hnegative⟩,fun hd => ?_⟩
      · rw [List.map_append,List.map_singleton]
        refine List.Nodup.append h.addresses_nodup (List.nodup_singleton _) ?_
        simpa using hnew
      · intro used hu
        rcases List.mem_append.mp hu with hu | hu
        · exact h.check_le used hu
        · simp only [List.mem_singleton] at hu
          simp [hu]
      · intro a ha
        obtain ⟨used,hu,hall⟩ := h.answered a ha
        exact ⟨used,List.mem_append_left _ hu,hall⟩
      · rw [List.countP_append]
        change s.fwChecksRunning+1=s.usedTestClients.countP s.isAwaited+_
        simp [hrunning,isAwaited]
      · change s.fwChecksRunning+1+s.fwChecksFinished≤_
        omega
      · change kUDPFWCheckClientsNeeded ≤ s.fwChecksFinished at hd
        omega
    · exact ih

theorem sound_queryNextClient (h : Sound s) (env : TesterEnv) : Sound (s.queryNextClient env) := by
  unfold queryNextClient
  split_ifs with hwait hneeded
  · exact h
  · exact h
  · rw [Bool.or_eq_true,not_or,Bool.not_eq_true',Bool.not_eq_false] at hneeded
    exact sound_askNext h hneeded.1 _

theorem Sound.learnPort (h : Sound s) (env : TesterEnv) (incomingPort : UInt16) :
    Sound (s.learnPort env incomingPort) := by
  unfold FirewallTester.learnPort
  split
  · exact h
  · split_ifs
    · exact h.of_eq rfl rfl rfl rfl rfl rfl
    · exact h.of_eq rfl rfl rfl rfl rfl rfl
    · exact h

/-- The list of asked clients after one of them has answered for the first time. -/
structure Marked (s : FirewallTester) (fromIP : UInt32) (l : List UsedClient) : Prop where
  addresses_nodup : (l.map (·.contact.ip)).Nodup
  check_le : ∀ used ∈ l, used.check ≤ s.check
  answered : ∀ a ∈ s.answers, ∃ used ∈ l,
    used.contact.ip = a.1 ∧ used.check = s.check ∧ used.answered = true
  fresh : fromIP ∉ s.answers.map Prod.fst

theorem marked (h : Sound s)
    (hfind : s.usedTestClients.find? (fun used => decide (used.contact.ip=fromIP))=some used)
    (hanswered : used.answered=false) :
    Marked s fromIP (markAnswered fromIP s.usedTestClients) := by
  obtain ⟨before,after,hsplit,hip,hmark⟩ := markAnswered_split hfind
  have hnodup := h.addresses_nodup
  have hle := h.check_le
  have hanswers := h.answered
  rw [hsplit] at hnodup hle hanswers
  rw [hmark]
  refine ⟨by simpa using hnodup,fun u hu => ?_,fun a ha => ?_,fun hin => ?_⟩
  · rcases List.mem_append.mp hu with hu | hu
    · exact hle u (List.mem_append_left _ hu)
    · rcases List.mem_cons.mp hu with rfl | hu
      · exact hle used (by simp)
      · exact hle u (List.mem_append_right _ (List.mem_cons_of_mem _ hu))
  · obtain ⟨u,hu,huip,hucheck,hudone⟩ := hanswers a ha
    rcases List.mem_append.mp hu with hu | hu
    · exact ⟨u,List.mem_append_left _ hu,huip,hucheck,hudone⟩
    · rcases List.mem_cons.mp hu with rfl | hu
      · simp [hanswered] at hudone
      · exact ⟨u,List.mem_append_right _ (List.mem_cons_of_mem _ hu),huip,hucheck,hudone⟩
  · obtain ⟨a,ha,rfl⟩ := List.mem_map.mp hin
    obtain ⟨u,hu,huip,_,hudone⟩ := hanswers a ha
    -- Two asked clients of one address would be one client, that has and has not answered.
    rw [List.map_append,List.map_cons,List.nodup_append] at hnodup
    obtain ⟨_,hlast,hdisjoint⟩ := hnodup
    rcases List.mem_append.mp hu with hu | hu
    · exact hdisjoint _ (List.mem_map_of_mem hu) _ List.mem_cons_self (huip.trans hip.symm)
    · rcases List.mem_cons.mp hu with rfl | hu
      · simp [hanswered] at hudone
      · exact (List.nodup_cons.mp hlast).1 (hip.trans huip.symm ▸ List.mem_map_of_mem hu)

theorem markAnswered_awaited
    (hfind : s.usedTestClients.find? (fun used => decide (used.contact.ip=fromIP))=some used)
    (hanswered : used.answered=false) (hcheck : used.check=s.check) :
    s.usedTestClients.countP s.isAwaited =
        (markAnswered fromIP s.usedTestClients).countP s.isAwaited+1 ∧
      ∃ u∈markAnswered fromIP s.usedTestClients,
        u.contact.ip=fromIP ∧ u.check=s.check ∧ u.answered=true := by
  obtain ⟨before,after,hsplit,hip,hmark⟩ := markAnswered_split hfind
  rw [hmark]
  refine ⟨?_,{ used with answered := true },by simp,hip,hcheck,rfl⟩
  rw [hsplit,List.countP_append,List.countP_append,List.countP_cons_of_pos,
    List.countP_cons_of_neg]
  · omega
  · simp [isAwaited]
  · simp [isAwaited,hcheck,hanswered]

variable {succeeded testCancelled : Bool} {incomingPort : UInt16}

theorem sound_countAnswer (h : Sound s)
    (hfind : s.usedTestClients.find? (fun used => decide (used.contact.ip=fromIP))=some used)
    (hanswered : used.answered=false) (hcheck : used.check=s.check)
    (hopen : s.fwChecksFinished<kUDPFWCheckClientsNeeded) :
    Sound ({ s with usedTestClients := markAnswered fromIP s.usedTestClients }.countAnswer env
      succeeded testCancelled fromIP incomingPort) := by
  have hm := marked h hfind hanswered
  obtain ⟨hcount,hanswer⟩ := markAnswered_awaited hfind hanswered hcheck
  obtain ⟨hrunning,hroom,hfinished,hnegative⟩ := h.running hopen
  have hanswers : ∀ a∈s.answers++[(fromIP, succeeded)], ∃ used ∈
      markAnswered fromIP s.usedTestClients,
        used.contact.ip=a.1 ∧ used.check=s.check ∧ used.answered=true := by
    intro a ha
    rcases List.mem_append.mp ha with ha | ha
    · exact hm.answered a ha
    · simp only [List.mem_singleton] at ha
      subst ha
      exact hanswer
  have hfresh : ((s.answers++[(fromIP, succeeded)]).map Prod.fst).Nodup := by
    rw [List.map_append,List.map_singleton]
    exact List.Nodup.append h.answers_nodup (List.nodup_singleton _) (by simpa using hm.fresh)
  unfold countAnswer
  dsimp only
  split_ifs with hcancelled hsucceeded hdecided
  · apply sound_queryNextClient
    refine ⟨hm.addresses_nodup,hm.check_le,h.answers_nodup,hm.answered,
      fun _ => ⟨?_,?_,hfinished,hnegative⟩,fun hd => ?_⟩
    · change s.fwChecksRunning-1=(markAnswered fromIP s.usedTestClients).countP s.isAwaited
      omega
    · change s.fwChecksRunning-1+s.fwChecksFinished≤_
      omega
    · exact absurd hopen (not_lt.mpr hd)
  · apply Sound.learnPort
    refine ⟨hm.addresses_nodup,hm.check_le,hfresh,hanswers,fun hd => ?_,
      fun _ => ⟨rfl,rfl,.inl ⟨rfl,fromIP,by simp [hsucceeded]⟩⟩⟩
    exact absurd hd (lt_irrefl kUDPFWCheckClientsNeeded)
  · have hlast : s.fwChecksFinished=1 := by
      change s.fwChecksFinished+1≥2 at hdecided
      change s.fwChecksFinished<2 at hopen
      omega
    change s.fwChecksRunning+s.fwChecksFinished≤2 at hroom
    refine ⟨hm.addresses_nodup,hm.check_le,hfresh,hanswers,fun hd => ?_,
      fun _ => ⟨?_,?_,.inr ⟨rfl,?_,?_⟩⟩⟩
    · exact absurd hd (not_lt.mpr hdecided)
    · change s.fwChecksFinished+1=2
      omega
    · change s.fwChecksRunning-1=0
      omega
    · change (s.answers++[(fromIP, succeeded)]).length=2
      simp [← hfinished,hlast]
    · intro a ha
      rcases List.mem_append.mp ha with ha | ha
      · exact hnegative a ha
      · simp only [List.mem_singleton] at ha
        simpa [ha] using hsucceeded
  · apply sound_queryNextClient
    refine ⟨hm.addresses_nodup,hm.check_le,hfresh,hanswers,
      fun _ => ⟨?_,?_,?_,fun a ha => ?_⟩,fun hd => absurd hd hdecided⟩
    · change s.fwChecksRunning-1=(markAnswered fromIP s.usedTestClients).countP s.isAwaited
      omega
    · change s.fwChecksRunning-1+(s.fwChecksFinished+1)≤_
      omega
    · change s.fwChecksFinished+1=(s.answers++[(fromIP, succeeded)]).length
      simp [hfinished]
    · rcases List.mem_append.mp ha with ha | ha
      · exact hnegative a ha
      · simp only [List.mem_singleton] at ha
        simpa [ha] using hsucceeded

theorem sound_setUDPFWCheckResult (h : Sound s)
    (hok : InCheck s (.setUDPFWCheckResult env succeeded testCancelled fromIP incomingPort)) :
    Sound (s.setUDPFWCheckResult env succeeded testCancelled fromIP incomingPort) := by
  unfold setUDPFWCheckResult
  cases hfind : s.usedTestClients.find? (fun used => decide (used.contact.ip=fromIP)) with
  | none => exact h
  | some used =>
    have hmem := List.mem_of_find?_eq_some hfind
    have hip : used.contact.ip=fromIP := by simpa using List.find?_some hfind
    dsimp only
    split_ifs with hport hanswered hrunning
    · exact h.of_eq rfl rfl rfl rfl rfl rfl
    · exact h
    · have hopen : s.fwChecksFinished<kUDPFWCheckClientsNeeded :=
        of_decide_eq_true (Bool.and_eq_true_iff.mp hrunning).1
      have hfirst : used.answered=false := by simpa using hanswered
      exact sound_countAnswer h hfind hfirst (hok used hmem hip hfirst hopen).1 hopen
    · -- All is decided: the answer is noted and that is all.
      have hfirst : used.answered=false := by simpa using hanswered
      have hclosed : ¬ s.fwChecksFinished<kUDPFWCheckClientsNeeded := by
        intro hopen
        refine hrunning (Bool.and_eq_true_iff.mpr ⟨decide_eq_true hopen,?_⟩)
        simpa using (hok used hmem hip hfirst hopen).2
      have hm := marked h hfind hfirst
      exact ⟨hm.addresses_nodup,hm.check_le,h.answers_nodup,hm.answered,
        fun hd => absurd hd hclosed,h.decided⟩

theorem sound_step (h : Sound s) (call : Call) (hok : InCheck s call) : Sound (step s call) := by
  cases call with
  | setUDPFWCheckResult env succeeded testCancelled fromIP incomingPort =>
    exact sound_setUDPFWCheckResult h hok
  | reCheckFirewallUDP env setUnverified => exact h.newCheck rfl rfl rfl rfl rfl
  | addPossibleTestContact contact =>
    unfold step addPossibleTestContact
    dsimp only
    split_ifs
    · exact h
    · exact h
    · exact h.of_eq rfl rfl rfl rfl rfl rfl
  | reset env => exact h.newCheck rfl rfl rfl rfl rfl
  | connected env =>
    unfold step connected
    dsimp only
    split_ifs
    · exact h.of_eq rfl rfl rfl rfl rfl rfl
    · exact h
  | queryNextClient env => exact sound_queryNextClient h env

/-- What the tester says of the port. -/
def verdict (s : FirewallTester) : Bool × Bool := (s.firewalledUDP, s.isFWVerifiedUDP)

theorem askNext_verdict (l : List TestContact) : (s.askNext env l).verdict=s.verdict := by
  induction l with
  | nil => rfl
  | cons contact rest ih =>
    unfold askNext
    split_ifs
    · rfl
    · exact ih

theorem queryNextClient_verdict : (s.queryNextClient env).verdict=s.verdict := by
  unfold queryNextClient
  split_ifs
  · rfl
  · rfl
  · exact askNext_verdict _

theorem learnPort_kept (incomingPort : UInt16) :
    (s.learnPort env incomingPort).fwChecksFinished=s.fwChecksFinished ∧
      (s.learnPort env incomingPort).check=s.check := by
  unfold learnPort
  split
  · exact ⟨rfl,rfl⟩
  · split_ifs <;> exact ⟨rfl,rfl⟩

theorem verdict_setUDPFWCheckResult :
    (s.setUDPFWCheckResult env succeeded testCancelled fromIP incomingPort).verdict=s.verdict ∨
      s.fwChecksFinished<kUDPFWCheckClientsNeeded ∧ kUDPFWCheckClientsNeeded ≤
        (s.setUDPFWCheckResult env succeeded testCancelled fromIP incomingPort).fwChecksFinished ∧
        (s.setUDPFWCheckResult env succeeded testCancelled fromIP incomingPort).check =
          s.check := by
  unfold setUDPFWCheckResult
  cases s.usedTestClients.find? fun used => decide (used.contact.ip=fromIP) with
  | none => exact .inl rfl
  | some used =>
    dsimp only
    split_ifs with hport hanswered hrunning
    · exact .inl rfl
    · exact .inl rfl
    · have hopen : s.fwChecksFinished<kUDPFWCheckClientsNeeded :=
        of_decide_eq_true (Bool.and_eq_true_iff.mp hrunning).1
      unfold countAnswer
      dsimp only
      split_ifs with hcancelled hsucceeded hdecided
      · exact .inl queryNextClient_verdict
      · unfold decideOpen
        refine .inr ⟨hopen,?_,?_⟩
        · rw [(learnPort_kept incomingPort).1]
        · rw [(learnPort_kept incomingPort).2]
      · exact .inr ⟨hopen,hdecided,rfl⟩
      · exact .inl queryNextClient_verdict
    · exact .inl rfl

theorem verdict_step (call : Call) :
    (step s call).verdict=s.verdict ∨ (∃ env, call = .reset env) ∨
      (∃ env, call = .reCheckFirewallUDP env true) ∨
      s.fwChecksFinished<kUDPFWCheckClientsNeeded ∧
        kUDPFWCheckClientsNeeded≤(step s call).fwChecksFinished ∧
        (step s call).check=s.check := by
  cases call with
  | setUDPFWCheckResult env succeeded testCancelled fromIP incomingPort =>
    exact verdict_setUDPFWCheckResult.imp_right fun h => .inr (.inr h)
  | reCheckFirewallUDP env setUnverified =>
    cases setUnverified with
    | true => exact .inr (.inr (.inl ⟨env,rfl⟩))
    | false => exact .inl (by simp [step,reCheckFirewallUDP,verdict])
  | addPossibleTestContact contact =>
    left
    unfold step addPossibleTestContact
    dsimp only
    split_ifs <;> rfl
  | reset env => exact .inr (.inl ⟨env,rfl⟩)
  | connected env =>
    left
    unfold step connected
    dsimp only
    split_ifs <;> rfl
  | queryNextClient env => exact .inl queryNextClient_verdict

theorem Sound.awaited (h : Sound s) (hopen : s.fwChecksFinished<kUDPFWCheckClientsNeeded)
    (hfull : s.getUDPCheckClientsNeeded=false) :
    ∃ used∈s.usedTestClients, used.check=s.check ∧ used.answered=false := by
  have hplaces : ¬ s.fwChecksRunning+s.fwChecksFinished<kUDPFWCheckClientsNeeded :=
    of_decide_eq_false hfull
  have hpos : 0<s.usedTestClients.countP s.isAwaited := by
    rw [← (h.running hopen).1]
    omega
  obtain ⟨used,hu,hawaited⟩ := List.countP_pos_iff.mp hpos
  exact ⟨used,hu,by simpa [isAwaited] using hawaited⟩

theorem setUDPFWCheckResult_unrequested (h : ∀ used∈s.usedTestClients,used.contact.ip≠fromIP) :
    s.setUDPFWCheckResult env succeeded testCancelled fromIP incomingPort=s := by
  have hnone : s.usedTestClients.find? (fun used => decide (used.contact.ip=fromIP))=none := by
    simpa using h
  simp [setUDPFWCheckResult,hnone]

end Steps

/-- In a run in which no answer comes too late for its check the counters, the answers and the
verdict belong to the check that is on; no full check is left without anybody to answer; a new
verdict is the end of a check; and whoever was not asked changes nothing. -/
theorem counters_sound (calls : List Call) (hok : Along step InCheck init calls) :
    let s := run step init calls
    Sound s ∧
      (s.fwChecksFinished<kUDPFWCheckClientsNeeded → s.getUDPCheckClientsNeeded=false →
        ∃ used∈s.usedTestClients, used.check=s.check ∧ used.answered=false) ∧
      (∀ call,(step s call).verdict=s.verdict ∨ (∃ env, call = .reset env) ∨
        (∃ env, call = .reCheckFirewallUDP env true) ∨
        s.fwChecksFinished<kUDPFWCheckClientsNeeded ∧
          kUDPFWCheckClientsNeeded≤(step s call).fwChecksFinished ∧
          (step s call).check=s.check) ∧
      ∀ env succeeded testCancelled fromIP incomingPort,
        (∀ used∈s.usedTestClients,used.contact.ip≠fromIP) →
          s.setUDPFWCheckResult env succeeded testCancelled fromIP incomingPort=s := by
  intro s
  have hstep : ∀ s call,Sound s → InCheck s call → Sound (step s call) :=
    fun s call h hcall => sound_step h call hcall
  have hs : Sound s := run_invariant hstep sound_init hok
  exact ⟨hs,hs.awaited,verdict_step,fun _ _ _ _ _ => setUDPFWCheckResult_unrequested⟩

/-- Kad with both ports known, where everybody can be asked. -/
def reachable : TesterEnv where
  now := 1000
  shouldSkipFirewallChecks := false
  prefs := some ⟨4672, 4672, false⟩
  isOurselves := fun _ => false
  isKnown := fun _ => false
  doRequestFirewallCheckUDP := fun _ => true

/-- Two clients are asked and say that the port is closed. -/
def twoAnswers : List Call :=
  [.addPossibleTestContact ⟨1,0x0A000001,8⟩,.addPossibleTestContact ⟨2,0x0A000002,8⟩,
    .queryNextClient reachable,.setUDPFWCheckResult reachable false false 0x0A000001 0,
    .setUDPFWCheckResult reachable false false 0x0A000002 0]

theorem counters_sound_two :
    Sound (run step init twoAnswers) ∧ (run step init twoAnswers).verdict = (true, true) := by
  refine ⟨(counters_sound twoAnswers ⟨trivial,trivial,trivial,?_,?_,trivial⟩).1,by decide⟩
  · unfold InCheck
    decide
  · unfold InCheck
    decide

/-- A client asked before the recheck answers after it: the new check is over, and the port open,
before anybody was asked in it. And a client that answers while checks are skipped keeps its
place, so that the check waits for nobody. -/
theorem late_answer_decides :
    (let s := run step init [.addPossibleTestContact ⟨1, 0x0A000001, 8⟩, .queryNextClient reachable,
        .reCheckFirewallUDP reachable true, .setUDPFWCheckResult reachable true false 0x0A000001 0];
      s.verdict = (false, true) ∧ s.fwChecksFinished = kUDPFWCheckClientsNeeded ∧
        s.usedTestClients.filter (fun used => used.check = s.check) = []) ∧
    (let skipping := { reachable with shouldSkipFirewallChecks := true };
      let s := run step init [.addPossibleTestContact ⟨1, 0x0A000001, 8⟩,
        .addPossibleTestContact ⟨2, 0x0A000002, 8⟩, .queryNextClient reachable,
        .queryNextClient reachable, .setUDPFWCheckResult skipping false false 0x0A000001 0,
        .setUDPFWCheckResult skipping false false 0x0A000002 0];
      s.fwChecksRunning = kUDPFWCheckClientsNeeded ∧
        s.usedTestClients.filter s.isAwaited = []) := by
  decide

end FirewallTester

end EmuleQt.Kademlia
