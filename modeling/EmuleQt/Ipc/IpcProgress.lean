import EmuleQt.Ipc.IpcHistory

namespace EmuleQt.Ipc

open Framework

variable {V : Type} {cbor : Cbor V} {w w' : World V} {now : Clock}

def Resume.inPass : Resume → Bool
  | .decoded | .dispatched | .passed => true
  | _ => false

def Signal.gone : Signal V → Bool
  | .disconnected => true
  | _ => false

/-- Something decoded or complete waits to be handed over. -/
def World.Backlog (w : World V) : Prop :=
  w.conn.queue ≠ [] ∨ w.conn.hasCompleteFrame = true

/-- What waits is not forgotten: a pass is on, or posted, or comes behind `activity`. -/
structure Awake (w : World V) : Prop where
  seats : w.calls.countP Resume.inPass = w.conn.dispatching.toNat
  queued : w.conn.drainQueued = true → 0 < w.posted
  passed : .passed ∈ w.calls → w.conn.disconnectEmitted = true
  owed : w.Backlog → w.conn.dispatching = true ∨ w.conn.drainQueued = true ∨
    .readyRead ∈ w.calls ∨ w.conn.disconnectEmitted = true
  closed : w.conn.inputClosed = true → w.conn.readBuffer = []
  told : w.signals.countP Signal.gone = w.conn.disconnectEmitted.toNat

/-- Inside `drain`, between two signals. -/
structure InPass (w : World V) : Prop where
  busy : w.conn.dispatching=true
  seats : w.calls.countP Resume.inPass=0
  queued : w.conn.drainQueued=true → 0<w.posted
  passed : .passed∈w.calls → w.conn.disconnectEmitted=true
  closed : w.conn.inputClosed=true → w.conn.readBuffer=[]
  told : w.signals.countP Signal.gone=w.conn.disconnectEmitted.toNat

theorem not_pending (h : w.hasPendingInput=false) :
    w.conn.queue=[] ∧ w.conn.hasCompleteFrame=false := by
  simp only [World.hasPendingInput,Bool.or_eq_false_iff,Bool.not_eq_false',
    List.isEmpty_iff] at h
  exact h.1

theorem Awake.idle (hw : ¬ w.Backlog) :
    w.Backlog → w.conn.dispatching=true ∨ w.conn.drainQueued=true ∨
      .readyRead∈w.calls ∨ w.conn.disconnectEmitted=true :=
  fun h => absurd h hw

theorem not_backlog (h : w.hasPendingInput=false) : ¬ w.Backlog := by
  obtain ⟨hq,hf⟩ := not_pending h
  simp [World.Backlog,hq,hf]

theorem World.finishPass_cases (w : World V) :
    (w.hasPendingInput=true ∧ w.finishPass=w.scheduleDrain.leavePass) ∨
    (w.hasPendingInput=false ∧ w.finishPass=w.leavePass) ∨
    (w.hasPendingInput=false ∧ w.conn.disconnectEmitted=false ∧ w.finishPass =
      { w with conn := { w.conn with disconnectPending := false, disconnectEmitted := true } }.emit
        .disconnected .passed) := by
  rw [finishPass,reportDisconnect]
  cases hp : w.hasPendingInput with
  | true => exact .inl ⟨rfl,rfl⟩
  | false =>
    right
    cases hd : w.conn.disconnectPending with
    | false => exact .inl ⟨rfl,rfl⟩
    | true =>
      cases he : w.conn.disconnectEmitted with
      | true => exact .inl ⟨rfl,rfl⟩
      | false => exact .inr ⟨rfl,rfl,by simp⟩

theorem scheduled (w : World V) :
    w.scheduleDrain.conn.drainQueued=true := by
  rw [World.scheduleDrain]
  split
  · assumption
  · rfl

theorem scheduled_posted (h : w.conn.drainQueued=true → 0<w.posted) :
    0<w.scheduleDrain.posted := by
  rw [World.scheduleDrain]
  split
  · rename_i hq
    exact h hq
  · exact Nat.succ_pos _

theorem InPass.finishPass (h : InPass w) : Awake w.finishPass := by
  rcases w.finishPass_cases with ⟨hp,he⟩ | ⟨hp,he⟩ | ⟨hp,hd,he⟩
  · have hposted := scheduled_posted h.queued
    have hqueued := scheduled w
    rw [he]
    have hsame : w.scheduleDrain.calls=w.calls ∧ w.scheduleDrain.signals=w.signals ∧
        w.scheduleDrain.conn.disconnectEmitted=w.conn.disconnectEmitted ∧
        w.scheduleDrain.conn.inputClosed=w.conn.inputClosed ∧
        w.scheduleDrain.conn.readBuffer=w.conn.readBuffer := by
      rw [World.scheduleDrain]
      split <;> exact ⟨rfl,rfl,rfl,rfl,rfl⟩
    obtain ⟨hc,hs,hd,hi,hr⟩ := hsame
    refine ⟨?_,fun _ => hposted,?_,fun _ => .inr (.inl hqueued),?_,?_⟩
    · simp [World.leavePass,hc,h.seats]
    · simpa [World.leavePass,hc,hd] using h.passed
    · simpa [World.leavePass,hi,hr] using h.closed
    · simpa [World.leavePass,hs,hd] using h.told
  · rw [he]
    exact ⟨by simp [World.leavePass,h.seats],h.queued,h.passed,
      Awake.idle (not_backlog hp),h.closed,h.told⟩
  · rw [he]
    refine ⟨?_,h.queued,fun _ => rfl,Awake.idle (not_backlog hp),h.closed,?_⟩
    · simp [World.emit,h.busy,List.countP_cons,h.seats,Resume.inPass]
    · simp [World.emit,h.told,hd,Signal.gone]

theorem InPass.emit (h : InPass w) {signal : Signal V} (hs : signal.gone=false)
    {after : Resume} (ha : after = .decoded ∨ after = .dispatched) :
    Awake (w.emit signal after) := by
  have hin : after.inPass=true := by
    rcases ha with rfl | rfl <;> rfl
  refine ⟨?_,h.queued,fun hm => h.passed ?_,fun _ => .inl h.busy,h.closed,?_⟩
  · simp [World.emit,h.busy,h.seats,hin]
  · rcases List.mem_cons.mp hm with hm | hm
    · rcases ha with rfl | rfl <;> simp at hm
    · exact hm
  · have hc : (w.emit signal after).signals.countP Signal.gone=w.signals.countP Signal.gone := by
      simp [World.emit,hs]
    exact hc.trans h.told

/-! # The loops -/

/-- Popping and decoding change nothing but the queue and the buffer. -/
structure SameFlags (c c' : IpcConnection V) : Prop where
  budgetMs : c'.budgetMs=c.budgetMs
  drainQueued : c'.drainQueued=c.drainQueued
  dispatching : c'.dispatching=c.dispatching
  disconnectEmitted : c'.disconnectEmitted=c.disconnectEmitted
  inputClosed : c'.inputClosed=c.inputClosed

theorem SameFlags.refl (c : IpcConnection V) : SameFlags c c := ⟨rfl,rfl,rfl,rfl,rfl⟩

theorem SameFlags.trans {c c' c'' : IpcConnection V} (h : SameFlags c c') (h' : SameFlags c' c'') :
    SameFlags c c'' :=
  ⟨h'.budgetMs.trans h.budgetMs,h'.drainQueued.trans h.drainQueued,
    h'.dispatching.trans h.dispatching,h'.disconnectEmitted.trans h.disconnectEmitted,
    h'.inputClosed.trans h.inputClosed⟩

theorem InPass.of_flags (h : InPass w) {c : IpcConnection V} (hc : SameFlags w.conn c)
    (hb : c.inputClosed=true → c.readBuffer=[]) : InPass { w with conn := c } :=
  ⟨hc.dispatching.trans h.busy,h.seats,fun hq => h.queued (hc.drainQueued ▸ hq),
    fun hm => hc.disconnectEmitted.trans (h.passed hm),hb,by
      rw [h.told]
      simp [hc.disconnectEmitted]⟩

variable (cbor) in
theorem World.dispatch_cases (elapsed : Nat → Int) (first : Bool) (w : World V) :
    ∃ c : IpcConnection V, SameFlags w.conn c ∧ c.readBuffer=w.conn.readBuffer ∧
      (w.dispatch cbor elapsed first w.conn.queue = { w with conn := c }.finishPass ∧
          c.queue.length≤w.conn.queue.length ∧ (first=true → c.queue=[]) ∨
        ∃ msg, w.dispatch cbor elapsed first w.conn.queue =
            { w with conn := c }.emit (announce cbor msg) .dispatched ∧
          c.queue.length<w.conn.queue.length) := by
  generalize hq : w.conn.queue=queue
  induction queue generalizing w with
  | nil =>
    exact ⟨{ w.conn with queue := [] },⟨rfl,rfl,rfl,rfl,rfl⟩,rfl,
      .inl ⟨rfl,Nat.le_refl 0,fun _ => rfl⟩⟩
  | cons q rest ih =>
    rw [World.dispatch_announce]
    split_ifs with hlate hdead
    · exact ⟨{ w.conn with queue := q::rest },⟨rfl,rfl,rfl,rfl,rfl⟩,rfl,
        .inl ⟨rfl,Nat.le_refl _,fun hf => by simp [hf] at hlate⟩⟩
    · obtain ⟨c,hc,hb,hend⟩ := ih { w with conn := w.conn.pop q rest } rfl
      have hpop : SameFlags w.conn (w.conn.pop q rest) := ⟨rfl,rfl,rfl,rfl,rfl⟩
      refine ⟨c,hpop.trans hc,hb,?_⟩
      rw [List.length_cons]
      rcases hend with ⟨he,hl,hf⟩ | ⟨msg,he,hl⟩
      · exact .inl ⟨he,by omega,hf⟩
      · exact .inr ⟨msg,he,by omega⟩
    · exact ⟨w.conn.pop q rest,⟨rfl,rfl,rfl,rfl,rfl⟩,rfl,
        .inr ⟨q.msg,rfl,Nat.lt_succ_self _⟩⟩

variable (cbor) in
theorem IpcConnection.enqueue_flags (c : IpcConnection V) (msg : IpcMessage V) :
    SameFlags c (c.enqueue cbor msg) ∧
      (c.enqueue cbor msg).queue.length=c.queue.length+1 := by
  rw [enqueue]
  generalize (if c.coalesceIncoming && msg.isValid cbor then snapshotPushKey cbor msg else 0)=key
  by_cases h0 : key=0
  · simp only [h0,ne_eq,not_true_eq_false,if_false,List.length_append,List.length_cons,
      List.length_nil,Nat.zero_add,and_true]
    exact ⟨rfl,rfl,rfl,rfl,rfl⟩
  · cases hold : c.queuedKeys key with
    | none =>
      simp only [h0,supersede,hold,ne_eq,not_false_eq_true,if_true,List.length_append,
        List.length_cons,List.length_nil,Nat.zero_add,and_true]
      exact ⟨rfl,rfl,rfl,rfl,rfl⟩
    | some old =>
      simp only [h0,supersede,hold,ne_eq,not_false_eq_true,if_true,List.length_append,
        List.length_cons,List.length_nil,Nat.zero_add,List.length_modify,and_true]
      exact ⟨rfl,rfl,rfl,rfl,rfl⟩

variable (cbor) in
/-- What the loop of `decodeFrames` leaves behind: every frame taken makes the input smaller, and
with nothing on the queue it only stops where no frame is complete. -/
theorem IpcConnection.decodeLoop_spec (budgetMs : Int) (elapsed : Nat → Int) (n : Nat)
    (c : IpcConnection V) (hn : c.readBuffer.length≤n) :
    SameFlags c (c.decodeLoop cbor budgetMs elapsed n) ∧
      (c.decodeLoop cbor budgetMs elapsed n=c ∧
          (c.queue=[] → tryDecodeFrame cbor c.readBuffer=none) ∨
        (c.decodeLoop cbor budgetMs elapsed n).queue.length +
          (c.decodeLoop cbor budgetMs elapsed n).readBuffer.length <
            c.queue.length+c.readBuffer.length) := by
  induction n generalizing c with
  | zero =>
    have hnil : c.readBuffer=[] := List.eq_nil_of_length_eq_zero (by omega)
    refine ⟨.refl c,.inl ⟨rfl,fun _ => ?_⟩⟩
    simp [tryDecodeFrame,hnil,FrameHeaderSize]
  | succ n ih =>
    rw [decodeLoop]
    split_ifs with hlate
    · exact ⟨.refl c,.inl ⟨rfl,fun hq => absurd hq hlate.2.1⟩⟩
    cases hr : tryDecodeFrame cbor c.readBuffer with
    | none => exact ⟨.refl c,.inl ⟨rfl,fun _ => rfl⟩⟩
    | some r =>
      have hless := DecodeResult.consumes hr
      dsimp only
      generalize hd : { c with readBuffer := c.readBuffer.drop r.bytesConsumed } = d
      have hflags := d.enqueue_flags cbor r.message
      have hbuf := (d.enqueue_same cbor r.message).1
      have hdb : d.readBuffer=c.readBuffer.drop r.bytesConsumed := by simp [← hd]
      have hdq : d.queue=c.queue := by simp [← hd]
      have hcd : SameFlags c d := by
        rw [← hd]
        exact ⟨rfl,rfl,rfl,rfl,rfl⟩
      rw [← hdb] at hless
      obtain ⟨hf,hspec⟩ := ih (d.enqueue cbor r.message) (by rw [hbuf]; omega)
      refine ⟨(hcd.trans hflags.1).trans hf,.inr ?_⟩
      rw [← hdq]
      rcases hspec with ⟨he,-⟩ | hlt
      · rw [he,hbuf,hflags.2]
        omega
      · rw [hbuf,hflags.2] at hlt
        omega

/-! # One pass -/

theorem announce_gone (msg : IpcMessage V) : (announce cbor msg).gone=false := by
  rw [announce]
  split <;> rfl

theorem InPass.dispatch (h : InPass w) (elapsed : Nat → Int) (first : Bool) :
    Awake (w.dispatch cbor elapsed first w.conn.queue) := by
  obtain ⟨c,hc,hb,hend⟩ := World.dispatch_cases cbor elapsed first w
  have hin := h.of_flags hc (fun hi => hb.trans (h.closed (hc.inputClosed ▸ hi)))
  rcases hend with ⟨he,-,-⟩ | ⟨msg,he,-⟩
  · rw [he]
    exact hin.finishPass
  · rw [he]
    exact hin.emit (announce_gone msg) (.inr rfl)

theorem World.decodeFrames_eq (w : World V) :
    w.decodeFrames cbor now =
      if w.conn.inputClosed then w.dispatch cbor now.dispatch true w.conn.queue
      else
        let c := w.conn.decodeLoop cbor (w.conn.budgetMs.tdiv 2) now.decoding
          w.conn.readBuffer.length
        if { w with conn := c }.oversized then
          { w with conn := { c with inputClosed := true, readBuffer := [] } }.emit
            (.protocolError (.oversized (payloadLen c.readBuffer))) .decoded
        else World.dispatch cbor now.dispatch true { w with conn := c } c.queue := by
  rfl

theorem InPass.decodeFrames (h : InPass w) : Awake (w.decodeFrames cbor now) := by
  rw [World.decodeFrames_eq]
  split_ifs with hclosed
  · exact h.dispatch now.dispatch true
  obtain ⟨hflags,-⟩ := w.conn.decodeLoop_spec cbor (w.conn.budgetMs.tdiv 2) now.decoding _
    (Nat.le_refl w.conn.readBuffer.length)
  have hin := h.of_flags hflags (fun hi => absurd (hflags.inputClosed ▸ hi) hclosed)
  dsimp only
  split_ifs
  · have hshut : InPass { w with conn := { w.conn.decodeLoop cbor (w.conn.budgetMs.tdiv 2)
        now.decoding w.conn.readBuffer.length with inputClosed := true, readBuffer := [] } } :=
      ⟨hin.busy,hin.seats,hin.queued,hin.passed,fun _ => rfl,hin.told⟩
    exact hshut.emit rfl (.inl rfl)
  · exact hin.dispatch now.dispatch true

theorem awake_drain (hseats : w.calls.countP Resume.inPass=w.conn.dispatching.toNat)
    (hpassed : .passed∈w.calls → w.conn.disconnectEmitted=true)
    (hclosed : w.conn.inputClosed=true → w.conn.readBuffer=[])
    (htold : w.signals.countP Signal.gone=w.conn.disconnectEmitted.toNat) :
    Awake (w.drain cbor now) := by
  rw [World.drain]
  dsimp only
  split_ifs with hbusy hopen
  · exact ⟨hseats,fun hn => (Bool.false_ne_true hn).elim,hpassed,fun _ => .inl hbusy,hclosed,htold⟩
  all_goals
    have hfree : w.calls.countP Resume.inPass=0 := by simpa [hbusy] using hseats
    apply InPass.decodeFrames
  · exact ⟨rfl,hfree,fun hn => (Bool.false_ne_true hn).elim,hpassed,hclosed,htold⟩
  · exact ⟨rfl,hfree,fun hn => (Bool.false_ne_true hn).elim,hpassed,fun hi => absurd hi hopen,htold⟩

theorem Awake.scheduleDrain (h : Awake w) : Awake w.scheduleDrain := by
  rw [World.scheduleDrain]
  split_ifs
  · exact h
  · exact ⟨h.seats,fun _ => Nat.succ_pos _,h.passed,fun _ => .inr (.inl rfl),h.closed,h.told⟩

theorem Awake.reportDisconnect (h : Awake w) : Awake (w.reportDisconnect .slot) := by
  rw [World.reportDisconnect]
  split_ifs with he hp
  · exact h
  · exact Awake.scheduleDrain ⟨h.seats,h.queued,h.passed,h.owed,h.closed,h.told⟩
  · have hnone : ¬ w.Backlog := not_backlog (by simpa using hp)
    refine ⟨?_,h.queued,fun _ => rfl,Awake.idle hnone,h.closed,?_⟩
    · simpa [World.emit,Resume.inPass] using h.seats
    · have htold := h.told
      simp [World.emit,htold,he,Signal.gone]

theorem Awake.emit (h : Awake w) {signal : Signal V} (hs : signal.gone=false) :
    Awake (w.emit signal .slot) := by
  refine ⟨?_,h.queued,fun hm => h.passed ?_,fun hb => ?_,h.closed,?_⟩
  · simpa [World.emit,Resume.inPass] using h.seats
  · simpa [World.emit] using hm
  · simpa [World.emit] using h.owed hb
  · simpa [World.emit,hs] using h.told

theorem Awake.step (h : Awake w) (a : Action) (halive : (step cbor w a).deleted=false) :
    Awake (step cbor w a) := by
  rw [step.eq_def] at halive ⊢
  by_cases hdel : w.deleted
  · rw [if_pos hdel]
    exact h
  rw [if_neg hdel] at halive ⊢
  cases a with
  | arrive bytes => exact ⟨h.seats,h.queued,h.passed,h.owed,h.closed,h.told⟩
  | readyRead =>
    dsimp only
    rw [World.onReadyRead]
    split_ifs with hc
    · exact ⟨h.seats,h.queued,h.passed,h.owed,h.closed,h.told⟩
    · refine ⟨?_,h.queued,fun hm => h.passed ?_,fun _ => ?_,fun hi => absurd hi hc,?_⟩
      · simpa [World.emit,World.readAll,Resume.inPass] using h.seats
      · simpa [World.emit,World.readAll] using hm
      · simp [World.emit]
      · simpa [World.emit,World.readAll,Signal.gone] using h.told
  | drain now =>
    dsimp only
    split_ifs
    · exact h
    · exact awake_drain h.seats h.passed h.closed h.told
  | stallCheck =>
    dsimp only
    rw [World.onStallCheck]
    split_ifs
    · exact h
    · apply Awake.emit
      · exact ⟨h.seats,h.queued,h.passed,h.owed,h.closed,h.told⟩
      · rfl
  | socketLost => exact h.reportDisconnect
  | abort =>
    refine ⟨h.seats,h.queued,h.passed,Awake.idle ?_,fun _ => rfl,h.told⟩
    simp [World.abort,World.Backlog,IpcConnection.hasCompleteFrame,FrameHeaderSize]
  | setDispatchBudgetMs ms => exact ⟨h.seats,h.queued,h.passed,h.owed,h.closed,h.told⟩
  | setCoalesceIncoming on => exact ⟨h.seats,h.queued,h.passed,h.owed,h.closed,h.told⟩
  | slotsReturn now deeper =>
    dsimp only
    cases hcalls : w.calls with
    | nil => exact h
    | cons call calls =>
      have hseats := h.seats
      have hpassed : .passed∈calls → w.conn.disconnectEmitted=true := fun hm =>
        h.passed (hcalls ▸ List.mem_cons_of_mem _ hm)
      rw [hcalls,List.countP_cons] at hseats
      -- a call of the pass can only be resumed while the pass is on
      have hpass : call.inPass=true →
          w.conn.dispatching=true ∧ calls.countP Resume.inPass=0 := by
        intro hc
        rw [hc,if_pos rfl] at hseats
        cases hd : w.conn.dispatching with
        | false => simp [hd] at hseats
        | true => exact ⟨rfl,by simpa [hd] using hseats⟩
      have hin : call.inPass=true → InPass { w with calls } := fun hc =>
        ⟨(hpass hc).1,(hpass hc).2,h.queued,hpassed,h.closed,h.told⟩
      cases call with
      | slot =>
        refine ⟨hseats,h.queued,hpassed,fun hb => ?_,h.closed,h.told⟩
        simpa [hcalls] using h.owed hb
      | readyRead =>
        dsimp only
        rw [World.afterActivity]
        split_ifs with hbusy hnotice
        · apply Awake.emit
          · exact ⟨hseats,h.queued,hpassed,fun _ => .inl hbusy,h.closed,h.told⟩
          · rfl
        · exact ⟨hseats,h.queued,hpassed,fun _ => .inl hbusy,h.closed,h.told⟩
        · exact awake_drain hseats hpassed h.closed h.told
      | decoded => exact (hin rfl).dispatch now.dispatch true
      | dispatched => exact (hin rfl).dispatch now.dispatch false
      | passed =>
        have htold := h.passed (by simp [hcalls])
        exact ⟨(hpass rfl).2,h.queued,hpassed,fun _ => .inr (.inr (.inr htold)),h.closed,h.told⟩
  | delete => cases halive

/-! # When the end is told -/

def Settled (cbor : Cbor V) (w : World V) : Prop :=
  w.conn.queue = [] ∧ tryDecodeFrame cbor w.conn.readBuffer = none

/-- What passes and returning slots can still use up. -/
def World.weight (w : World V) : Nat :=
  2 * (w.conn.queue.length + w.conn.readBuffer.length + w.available.length +
    (!w.conn.inputClosed).toNat + (!w.conn.disconnectEmitted).toNat) + w.calls.length

/-- What the thread does by itself: slots return, and posted passes run. -/
def turn (cbor : Cbor V) (now : Clock) (w : World V) : World V :=
  step cbor w (if w.calls.isEmpty then .drain now else .slotsReturn now false)

def turns (cbor : Cbor V) (now : Nat → Clock) : Nat → World V → World V
  | 0, w => w
  | n + 1, w => turns cbor (fun i => now (i + 1)) n (turn cbor (now 0) w)

variable (cbor now) in
theorem turn_step (w : World V) : ∃ a, turn cbor now w=step cbor w a ∧ a ≠ .delete := by
  refine ⟨_,rfl,?_⟩
  split <;> simp

/-- The socket holds nothing that will still be read. -/
def World.AllRead (w : World V) : Prop := w.conn.inputClosed = true ∨ w.available = []

theorem World.AllRead.dispatch (h : w.AllRead) (elapsed : Nat → Int) (first : Bool) :
    (w.dispatch cbor elapsed first w.conn.queue).AllRead := by
  obtain ⟨c,hc,-,hend⟩ := World.dispatch_cases cbor elapsed first w
  have hsame := (SameInput.refl { w with conn := c }).finishPass
  rcases hend with ⟨he,-,-⟩ | ⟨msg,he,-⟩
  · rw [he,World.AllRead,hsame.inputClosed,hsame.available,hc.inputClosed]
    exact h
  · rw [he]
    exact h.imp_left hc.inputClosed.trans

theorem World.AllRead.drain (h : w.AllRead) : (w.drain cbor now).AllRead := by
  have hframes : ∀ u : World V, u.AllRead → (u.decodeFrames cbor now).AllRead := by
    intro u hu
    rw [World.decodeFrames_eq]
    dsimp only
    split_ifs
    · exact hu.dispatch now.dispatch true
    · exact .inl rfl
    · have hflags := (u.conn.decodeLoop_spec cbor (u.conn.budgetMs.tdiv 2) now.decoding _
        (Nat.le_refl u.conn.readBuffer.length)).1
      generalize u.conn.decodeLoop cbor (u.conn.budgetMs.tdiv 2) now.decoding
        u.conn.readBuffer.length=c at hflags
      have hread : World.AllRead { u with conn := c } := hu.imp_left hflags.inputClosed.trans
      exact hread.dispatch now.dispatch true
  rw [World.drain]
  dsimp only
  split_ifs with hbusy hclosed
  · exact h
  · exact hframes _ (.inl hclosed)
  · exact hframes _ (.inr rfl)

variable (cbor now) in
theorem World.AllRead.turn (h : w.AllRead) :
    (turn cbor now w).AllRead ∧ (turn cbor now w).received=w.received ∧
      (turn cbor now w).aborted=w.aborted := by
  rw [Ipc.turn,step.eq_def]
  by_cases hdel : w.deleted
  · rw [if_pos hdel]
    exact ⟨h,rfl,rfl⟩
  rw [if_neg hdel]
  by_cases hidle : w.calls.isEmpty
  · rw [if_pos hidle]
    dsimp only
    split_ifs
    · exact ⟨h,rfl,rfl⟩
    · obtain ⟨hr,-,hab⟩ := World.drain_received cbor now { w with posted := w.posted-1 }
      exact ⟨World.AllRead.drain h,hr,hab⟩
  rw [if_neg hidle]
  dsimp only
  cases w.calls with
  | nil => exact ⟨h,rfl,rfl⟩
  | cons call calls =>
    cases call with
    | readyRead =>
      dsimp only
      rw [World.afterActivity]
      split_ifs
      · exact ⟨h,rfl,rfl⟩
      · exact ⟨h,rfl,rfl⟩
      · obtain ⟨hr,-,hab⟩ := World.drain_received cbor now { w with calls }
        exact ⟨World.AllRead.drain h,hr,hab⟩
    | decoded =>
      obtain ⟨hr,-,hab⟩ := World.dispatch_received cbor now.dispatch true { w with calls }
        w.conn.queue
      exact ⟨World.AllRead.dispatch (w := { w with calls }) h _ _,hr,hab⟩
    | dispatched =>
      obtain ⟨hr,-,hab⟩ := World.dispatch_received cbor now.dispatch false { w with calls }
        w.conn.queue
      exact ⟨World.AllRead.dispatch (w := { w with calls }) h _ _,hr,hab⟩
    | _ => exact ⟨h,rfl,rfl⟩

variable (cbor) in
theorem World.AllRead.turns (h : w.AllRead) (now : Nat → Clock) (n : Nat) :
    (turns cbor now n w).AllRead ∧ (turns cbor now n w).received=w.received ∧
      (turns cbor now n w).aborted=w.aborted ∧
      ∃ ops, turns cbor now n w=run (step cbor) w ops := by
  induction n generalizing w now with
  | zero => exact ⟨h,rfl,rfl,[],rfl⟩
  | succ n ih =>
    obtain ⟨a,ha,-⟩ := turn_step cbor (now 0) w
    obtain ⟨hnext,hrec,hab⟩ := h.turn cbor (now 0)
    obtain ⟨hread,hrecs,habs,ops,hops⟩ := ih hnext fun i => now (i+1)
    refine ⟨hread,hrecs.trans hrec,habs.trans hab,a::ops,?_⟩
    rw [run_cons,← ha]
    exact hops

end EmuleQt.Ipc
