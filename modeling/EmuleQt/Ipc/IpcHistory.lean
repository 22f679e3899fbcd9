import EmuleQt.Framework.Coalesce
import EmuleQt.Framework.Run
import EmuleQt.Ipc.IpcConnection
import Mathlib.Data.List.Induction

namespace EmuleQt.Ipc

open Framework

variable {V : Type} {cbor : Cbor V} {frames done todo : List (Frame V)} {tail : List UInt8}
  {w w' : World V} {popped lost : List (Queued V)}

/-- The signal a message is handed to the slots with. -/
def announce (cbor : Cbor V) (msg : IpcMessage V) : Signal V :=
  if msg.isValid cbor then .messageReceived msg else .protocolError .invalidMessage

def Signal.hands : Signal V → Bool
  | .messageReceived _ => true
  | .protocolError .invalidMessage => true
  | _ => false

/-- The messages that were handed to the slots, as their signals. -/
def World.handed (w : World V) : List (Signal V) := w.signals.filter Signal.hands

def Queued.pushKey (cbor : Cbor V) (q : Queued V) : Nat := snapshotPushKey cbor q.msg

/-- Where every frame that was sent is: popped off the queue, lost by an abort, on the queue, or
still to be decoded. -/
structure History (cbor : Cbor V) (frames : List (Frame V)) (tail : List UInt8) (w : World V)
    (popped lost : List (Queued V)) (done todo : List (Frame V)) : Prop where
  split : frames = done ++ todo
  bytes : w.conn.inputClosed = false →
    w.received = wire done ++ w.conn.readBuffer ++ w.available
  decoded : (popped ++ lost ++ w.conn.queue).map Queued.msg = done.map Frame.message
  kept : w.aborted = false → lost = []
  handed : w.handed = ((popped.filter Queued.live).map Queued.msg).map (announce cbor)
  covered : Covered (Queued.pushKey cbor) Queued.live (popped ++ lost ++ w.conn.queue)
  pushes : ∀ q ∈ popped ++ lost ++ w.conn.queue, q.live = false → q.pushKey cbor ≠ 0
  /-- the remembered sequences are positions on the queue -/
  keys : ∀ key seq, w.conn.queuedKeys key = some seq → ∃ i q,
    w.conn.queue[i]? = some q ∧ seq = w.conn.queueBase + i ∧ q.live = true ∧
      key ≠ 0 ∧ q.key = key ∧ q.pushKey cbor = key
  closed : w.conn.inputClosed = true → w.aborted = false →
    todo = [] ∧ FrameHeaderSize ≤ tail.length ∧ MaxPayloadSize < payloadLen tail
  ended : w.aborted = true → w.conn.inputClosed = true ∧ w.conn.queue = []

/-- Two worlds with one input: the queue, the bytes and what was handed over are the same. -/
structure SameInput (w w' : World V) : Prop where
  queue : w'.conn.queue=w.conn.queue
  base : w'.conn.queueBase=w.conn.queueBase
  keys : w'.conn.queuedKeys=w.conn.queuedKeys
  buffer : w'.conn.readBuffer=w.conn.readBuffer
  inputClosed : w'.conn.inputClosed=w.conn.inputClosed
  available : w'.available=w.available
  received : w'.received=w.received
  aborted : w'.aborted=w.aborted
  deleted : w'.deleted=w.deleted
  handed : w'.handed=w.handed

namespace SameInput

variable {u : World V}

theorem refl (w : World V) : SameInput w w := ⟨rfl,rfl,rfl,rfl,rfl,rfl,rfl,rfl,rfl,rfl⟩

theorem emit (h : SameInput w u) {signal : Signal V} (hs : signal.hands=false)
    (after : Resume) : SameInput w (u.emit signal after) :=
  ⟨h.queue,h.base,h.keys,h.buffer,h.inputClosed,h.available,h.received,h.aborted,h.deleted,by
    rw [← h.handed]
    simp [World.handed,World.emit,hs]⟩

theorem scheduleDrain (h : SameInput w u) : SameInput w u.scheduleDrain := by
  rw [World.scheduleDrain]
  split
  · exact h
  · exact ⟨h.queue,h.base,h.keys,h.buffer,h.inputClosed,h.available,h.received,h.aborted,
      h.deleted,h.handed⟩

theorem leave (h : SameInput w u) (after : Resume) : SameInput w (u.leave after) := by
  cases after with
  | passed => exact ⟨h.queue,h.base,h.keys,h.buffer,h.inputClosed,h.available,h.received,
      h.aborted,h.deleted,h.handed⟩
  | _ => exact h

theorem reportDisconnect (h : SameInput w u) (after : Resume) :
    SameInput w (u.reportDisconnect after) := by
  rw [World.reportDisconnect]
  split_ifs
  · exact h.leave after
  · apply leave
    apply scheduleDrain
    exact ⟨h.queue,h.base,h.keys,h.buffer,h.inputClosed,h.available,h.received,h.aborted,
      h.deleted,h.handed⟩
  · apply emit _ rfl
    exact ⟨h.queue,h.base,h.keys,h.buffer,h.inputClosed,h.available,h.received,h.aborted,
      h.deleted,h.handed⟩

theorem finishPass (h : SameInput w u) : SameInput w u.finishPass := by
  rw [World.finishPass]
  split_ifs
  · exact h.scheduleDrain.leave .passed
  · exact h.reportDisconnect .passed
  · exact h.leave .passed

end SameInput

namespace History

theorem keep (h : History cbor frames tail w popped lost done todo) (hw : SameInput w w') :
    History cbor frames tail w' popped lost done todo where
  split := h.split
  bytes := by
    intro hc
    rw [hw.received,hw.buffer,hw.available]
    exact h.bytes (hw.inputClosed ▸ hc)
  decoded := by rw [hw.queue]; exact h.decoded
  kept := by rw [hw.aborted]; exact h.kept
  handed := by rw [hw.handed]; exact h.handed
  covered := by rw [hw.queue]; exact h.covered
  pushes := by rw [hw.queue]; exact h.pushes
  keys := by rw [hw.keys,hw.queue,hw.base]; exact h.keys
  closed := by rw [hw.inputClosed,hw.aborted]; exact h.closed
  ended := by rw [hw.inputClosed,hw.aborted,hw.queue]; exact h.ended

end History

/-! # One frame more -/

theorem modify_split {α : Type} (xs : List α) (x : α) (ys : List α) (f : α → α) :
    (xs++x::ys).modify xs.length f=xs++f x::ys := by
  induction xs with
  | nil => rfl
  | cons z zs ih => simpa using ih

theorem split_at {α : Type} {l : List α} {i : Nat} {x : α} (h : l[i]? = some x) :
    ∃ xs ys, l=xs++x::ys ∧ xs.length=i := by
  obtain ⟨hi,hx⟩ := List.getElem?_eq_some_iff.mp h
  refine ⟨l.take i,l.drop (i+1),?_,List.length_take_of_le (Nat.le_of_lt hi)⟩
  rw [← hx,← List.drop_eq_getElem_cons hi,List.take_append_drop]

theorem getElem?_replace {α : Type} {xs ys : List α} {x x' e y : α} {i : Nat} (hi : i≠xs.length)
    (h : (xs++x::ys)[i]? = some y) : (xs++x'::ys++[e])[i]? = some y := by
  have hs : xs++x'::ys=(xs++x::ys).set xs.length x' := by simp
  rw [hs]
  have hlt : i<(xs++x::ys).length := (List.getElem?_eq_some_iff.mp h).1
  rw [List.getElem?_append_left (by simpa using hlt),List.getElem?_set_ne hi.symm,h]

theorem IpcConnection.enqueue_same (c : IpcConnection V) (cbor : Cbor V) (msg : IpcMessage V) :
    (c.enqueue cbor msg).readBuffer=c.readBuffer ∧
      (c.enqueue cbor msg).inputClosed=c.inputClosed ∧
      (c.enqueue cbor msg).queueBase=c.queueBase := by
  simp only [enqueue,supersede]
  generalize (if c.coalesceIncoming && msg.isValid cbor then snapshotPushKey cbor msg else 0)=key
  by_cases h0 : key=0
  · simp [h0]
  · cases hold : c.queuedKeys key <;> simp [h0]

/-- What coming in does to the queue: an older entry of the key may be given up. -/
theorem IpcConnection.enqueue_cases {c : IpcConnection V}
    (hkeys : ∀ key seq,c.queuedKeys key=some seq → ∃ i q, c.queue[i]? = some q ∧
      seq=c.queueBase+i ∧ q.live=true ∧ key≠0 ∧ q.key=key ∧ q.pushKey cbor=key)
    (msg : IpcMessage V) :
    (∃ e : Queued V, e.msg=msg ∧ e.live=true ∧ (c.enqueue cbor msg).queue=c.queue++[e] ∧
      (∀ key seq,(c.enqueue cbor msg).queuedKeys key=some seq →
        c.queuedKeys key=some seq ∨ key≠0 ∧ e.key=key ∧ e.pushKey cbor=key ∧
          seq=c.queueBase+c.queue.length)) ∨
    (∃ (e : Queued V) (xs : List (Queued V)) (q : Queued V) (ys : List (Queued V)),
      e.msg=msg ∧ e.live=true ∧ c.queue=xs++q::ys ∧ q.live=true ∧
      q.pushKey cbor≠0 ∧ e.pushKey cbor=q.pushKey cbor ∧
      (c.enqueue cbor msg).queue=xs ++ { q with live := false } :: ys++[e] ∧
      (∀ key seq,(c.enqueue cbor msg).queuedKeys key=some seq →
        key≠q.pushKey cbor ∧ c.queuedKeys key=some seq ∨
          key=q.pushKey cbor ∧ e.key=key ∧ seq=c.queueBase+c.queue.length)) := by
  rw [enqueue]
  generalize hkey : (if c.coalesceIncoming && msg.isValid cbor then snapshotPushKey cbor msg else 0)
    = key
  by_cases h0 : key=0
  · left
    refine ⟨⟨msg,key,true⟩,rfl,rfl,by simp [h0],?_⟩
    intro k seq h
    left
    simpa [h0] using h
  have hpush : snapshotPushKey cbor msg=key := by
    split at hkey
    · exact hkey
    · exact absurd hkey.symm h0
  cases hold : c.queuedKeys key with
  | none =>
    left
    refine ⟨⟨msg,key,true⟩,rfl,rfl,by simp [h0,supersede,hold],?_⟩
    intro k seq h
    simp only [h0,supersede,hold,ne_eq,not_false_eq_true,if_true] at h
    by_cases hk : k=key
    · right
      rw [hk,Function.update_self] at h
      exact ⟨hk ▸ h0,hk.symm,hpush.trans hk.symm,(Option.some.inj h).symm⟩
    · left
      rwa [Function.update_of_ne hk] at h
  | some old =>
    right
    obtain ⟨i,q,hi,hseq,hl,-,-,hpk⟩ := hkeys key old hold
    obtain ⟨xs,ys,hq,hlen⟩ := split_at hi
    refine ⟨⟨msg,key,true⟩,xs,q,ys,rfl,rfl,hq,hl,hpk ▸ h0,hpush.trans hpk.symm,?_,?_⟩
    · have hat : old-c.queueBase=xs.length := by omega
      simp [h0,supersede,hold,hat,hq,modify_split]
    · intro k seq h
      simp only [h0,supersede,hold,ne_eq,not_false_eq_true,if_true] at h
      by_cases hk : k=key
      · right
        rw [hk,Function.update_self] at h
        exact ⟨hk.trans hpk.symm,hk.symm,(Option.some.inj h).symm⟩
      · left
        rw [Function.update_of_ne hk] at h
        exact ⟨hpk ▸ hk,h⟩

theorem History.unfinished (h : History cbor frames tail w popped lost done todo)
    (hopen : w.conn.inputClosed=false) : w.aborted=false ∧ lost=[] := by
  have hab : w.aborted=false := by
    by_contra hn
    have := (h.ended (by simpa using hn)).1
    simp [hopen] at this
  exact ⟨hab,h.kept hab⟩

theorem History.buffer (h : History cbor frames tail w popped lost done todo)
    (hopen : w.conn.inputClosed=false) (hin : w.received <+: wire frames++tail) :
    w.conn.readBuffer <+: wire todo++tail := by
  have hall : wire done++(w.conn.readBuffer++w.available) <+: wire done++(wire todo++tail) := by
    rw [← List.append_assoc,← List.append_assoc,← wire_append,← h.split,← h.bytes hopen]
    exact hin
  exact (List.prefix_append _ _).trans ((List.prefix_append_right_inj _).mp hall)

/-- One frame goes from the buffer to the queue. -/
theorem History.decode (h : History cbor frames tail w popped lost done todo)
    (hopen : w.conn.inputClosed=false) (hok : ∀ f∈frames,f.Ok cbor)
    (htail : tryDecodeFrame cbor tail=none) (hin : w.received <+: wire frames++tail)
    {r : DecodeResult V} (hr : tryDecodeFrame cbor w.conn.readBuffer=some r) :
    ∃ f rest, todo=f::rest ∧ History cbor frames tail
      { w with conn := { w.conn with
        readBuffer := w.conn.readBuffer.drop r.bytesConsumed }.enqueue cbor r.message }
      popped lost (done++[f]) rest := by
  obtain ⟨hab,hlost⟩ := h.unfinished hopen
  have hokt : ∀ f∈todo,f.Ok cbor := fun f hf => hok f (by simp [h.split,hf])
  obtain ⟨f,rest,htodo,hmsg,hbuf⟩ := tryDecodeFrame_stream hokt htail (h.buffer hopen hin) hr
  refine ⟨f,rest,htodo,?_⟩
  generalize hc : { w.conn with readBuffer := w.conn.readBuffer.drop r.bytesConsumed } = c
  have hcq : c.queue=w.conn.queue := by simp [← hc]
  have hcb : c.queueBase=w.conn.queueBase := by simp [← hc]
  have hck : c.queuedKeys=w.conn.queuedKeys := by simp [← hc]
  have hcr : c.readBuffer=w.conn.readBuffer.drop r.bytesConsumed := by simp [← hc]
  have hci : c.inputClosed=false := by simp [← hc,hopen]
  have hrest := c.enqueue_same cbor r.message
  have hkeys : ∀ key seq,c.queuedKeys key=some seq → ∃ i q, c.queue[i]? = some q ∧
      seq=c.queueBase+i ∧ q.live=true ∧ key≠0 ∧ q.key=key ∧ q.pushKey cbor=key := by
    rw [hck,hcq,hcb]
    exact h.keys
  have hbytes : w.received=wire (done++[f])++c.readBuffer++w.available := by
    rw [h.bytes hopen,wire_append,hcr]
    conv_lhs => rw [hbuf]
    simp
  have hdec := h.decoded
  have hcov := h.covered
  have hpush := h.pushes
  subst hlost
  rw [List.append_nil] at hdec hcov hpush
  rcases IpcConnection.enqueue_cases hkeys r.message with
    ⟨e,hem,hel,hq,hk⟩ | ⟨e,xs,q,ys,hem,hel,hold,hql,hq0,hqe,hq,hk⟩
  · refine ⟨by simp [h.split,htodo],fun _ => by rw [hrest.1]; exact hbytes,?_,fun _ => rfl,
      h.handed,?_,?_,?_,?_,?_⟩
    · rw [hq,hcq,List.append_nil,← List.append_assoc,List.map_append,hdec,List.map_append]
      simp [hem,hmsg]
    · rw [hq,hcq,List.append_nil,← List.append_assoc]
      exact hcov.append_live hel
    · intro x hx hdead
      rw [hq,hcq,List.append_nil,← List.append_assoc] at hx
      rcases List.mem_append.mp hx with hx | hx
      · exact hpush x hx hdead
      · rw [List.mem_singleton.mp hx,hel] at hdead
        cases hdead
    · intro key seq hks
      rw [hq,hrest.2.2]
      rcases hk key seq hks with hks | ⟨h0,hek,hpk,hseq⟩
      · obtain ⟨i,x,hx,hkept⟩ := hkeys key seq hks
        exact ⟨i,x,(List.getElem?_append_left (List.getElem?_eq_some_iff.mp hx).1).trans hx,hkept⟩
      · exact ⟨c.queue.length,e,by simp,hseq,hel,h0,hek,hpk⟩
    · intro hi
      rw [hrest.2.1,hci] at hi
      cases hi
    · intro ha
      simp [hab] at ha
  · rw [← hcq,hold] at hdec hcov hpush
    refine ⟨by simp [h.split,htodo],fun _ => by rw [hrest.1]; exact hbytes,?_,fun _ => rfl,
      h.handed,?_,?_,?_,?_,?_⟩
    · have hmap : (popped++(xs ++ { q with live := false } :: ys)).map Queued.msg =
          (popped++(xs++q::ys)).map Queued.msg := by
        simp
      rw [hq,List.append_nil,← List.append_assoc,List.map_append,hmap,hdec,List.map_append]
      simp [hem,hmsg]
    · rw [hq,List.append_nil,← List.append_assoc,← List.append_assoc]
      rw [← List.append_assoc] at hcov
      exact hcov.replace rfl hel hqe
    · intro x hx hdead
      rw [hq,List.append_nil,← List.append_assoc] at hx
      rcases List.mem_append.mp hx with hx | hx
      · by_cases hxq : x = { q with live := false }
        · rw [hxq]
          exact hq0
        · refine hpush x ?_ hdead
          simp only [List.mem_append,List.mem_cons,hxq,false_or] at hx ⊢
          tauto
      · rw [List.mem_singleton.mp hx,hel] at hdead
        cases hdead
    · intro key seq hks
      rw [hq,hrest.2.2]
      rcases hk key seq hks with ⟨hne,hks⟩ | ⟨hke,hek,hseq⟩
      · obtain ⟨i,x,hx,hseq,hl,h0,hkx,hpk⟩ := hkeys key seq hks
        have hi : i≠xs.length := by
          intro hi
          rw [hold,hi] at hx
          simp only [List.getElem?_append_right (Nat.le_refl _),Nat.sub_self,
            List.getElem?_cons_zero,Option.some.injEq] at hx
          exact hne (hpk ▸ hx ▸ rfl)
        exact ⟨i,x,getElem?_replace hi (hold ▸ hx),hseq,hl,h0,hkx,hpk⟩
      · refine ⟨c.queue.length,e,?_,hseq,hel,hke ▸ hq0,hek,hke ▸ hqe⟩
        simp [hold]
    · intro hi
      rw [hrest.2.1,hci] at hi
      cases hi
    · intro ha
      simp [hab] at ha

theorem History.decodeLoop (h : History cbor frames tail w popped lost done todo)
    (hopen : w.conn.inputClosed=false) (hok : ∀ f∈frames,f.Ok cbor)
    (htail : tryDecodeFrame cbor tail=none) (hin : w.received <+: wire frames++tail)
    (budgetMs : Int) (elapsed : Nat → Int) (n : Nat) :
    ∃ done todo, History cbor frames tail
      { w with conn := w.conn.decodeLoop cbor budgetMs elapsed n } popped lost done todo ∧
      (w.conn.decodeLoop cbor budgetMs elapsed n).inputClosed=false := by
  induction n generalizing w done todo with
  | zero => exact ⟨done,todo,h,hopen⟩
  | succ n ih =>
    rw [IpcConnection.decodeLoop]
    split
    · exact ⟨done,todo,h,hopen⟩
    cases hr : tryDecodeFrame cbor w.conn.readBuffer with
    | none => exact ⟨done,todo,h,hopen⟩
    | some r =>
      obtain ⟨f,rest,-,hnext⟩ := h.decode hopen hok htail hin hr
      refine ih hnext ?_ hin
      rw [(IpcConnection.enqueue_same _ cbor r.message).2.1]
      exact hopen

theorem History.pop (h : History cbor frames tail w popped lost done todo) {q : Queued V}
    {rest : List (Queued V)} (hq : w.conn.queue=q::rest) (hc : w'.conn=w.conn.pop q rest)
    (ha : w'.available=w.available) (hrec : w'.received=w.received)
    (hab : w'.aborted=w.aborted)
    (hs : w'.handed=w.handed++if q.live then [announce cbor q.msg] else []) :
    History cbor frames tail w' (popped++[q]) lost done todo := by
  have hopen : w.aborted=false := by
    by_contra hn
    have := (h.ended (by simpa using hn)).2
    simp [hq] at this
  have hlost := h.kept hopen
  have hdec := h.decoded
  have hcov := h.covered
  have hpush := h.pushes
  subst hlost
  rw [hq] at hdec hcov hpush
  have hsame : popped++[q]++[]++rest=popped++[]++q::rest := by simp
  have hqueue : w'.conn.queue=rest := by rw [hc]; rfl
  refine ⟨h.split,?_,by rw [hqueue,hsame]; exact hdec,fun _ => rfl,?_,
    by rw [hqueue,hsame]; exact hcov,by rw [hqueue,hsame]; exact hpush,?_,?_,?_⟩
  · rw [hrec,ha,hc]
    exact h.bytes
  · rw [hs,h.handed]
    cases hl : q.live <;> simp [hl]
  · intro key seq hks
    have hold : w.conn.queuedKeys key=some seq := by
      rw [hc] at hks
      simp only [IpcConnection.pop] at hks
      split at hks
      · by_cases hk : key=q.key
        · simp [hk] at hks
        · rwa [Function.update_of_ne hk] at hks
      · exact hks
    obtain ⟨i,x,hx,hseq,hl,h0,hxk,hpk⟩ := h.keys key seq hold
    rw [hqueue,hc]
    cases i with
    | zero =>
      -- the remembered entry is the one that leaves: its key is forgotten
      have hx : q=x := by simpa [hq] using hx
      subst hx
      have hat : w.conn.queuedKeys q.key=some w.conn.queueBase := by
        rw [hxk,hold,hseq,Nat.add_zero]
      rw [hc,← hxk] at hks
      simp [IpcConnection.pop,hat,hl,hxk ▸ h0] at hks
    | succ i =>
      refine ⟨i,x,by simpa [hq] using hx,?_,hl,h0,hxk,hpk⟩
      simp only [IpcConnection.pop]
      omega
  · rw [hab,hc]
    exact h.closed
  · intro hn
    rw [hab,hopen] at hn
    cases hn

/-! # Passes -/

theorem World.handed_emit (w : World V) {signal : Signal V} (hs : signal.hands=true)
    (after : Resume) : (w.emit signal after).handed=w.handed++[signal] := by
  simp [World.handed,World.emit,hs]

theorem announce_hands (msg : IpcMessage V) : (announce cbor msg).hands=true := by
  rw [announce]
  split <;> rfl

theorem World.dispatch_announce (elapsed : Nat → Int) (first : Bool) (w : World V) (q : Queued V)
    (rest : List (Queued V)) :
    w.dispatch cbor elapsed first (q::rest) =
      if first=false ∧ 0<w.conn.budgetMs ∧ w.conn.budgetMs≤elapsed rest.length then
        { w with conn := { w.conn with queue := q::rest } }.finishPass
      else if q.live=false then
        World.dispatch cbor elapsed first { w with conn := w.conn.pop q rest } rest
      else { w with conn := w.conn.pop q rest }.emit (announce cbor q.msg) .dispatched := by
  rw [World.dispatch,announce]
  split_ifs <;> rfl

theorem History.dispatch (h : History cbor frames tail w popped lost done todo)
    (elapsed : Nat → Int) (first : Bool) :
    ∃ popped, History cbor frames tail (w.dispatch cbor elapsed first w.conn.queue)
      popped lost done todo := by
  generalize hq : w.conn.queue=queue
  induction queue generalizing w popped with
  | nil =>
    refine ⟨popped,h.keep (.finishPass ?_)⟩
    exact ⟨hq.symm,rfl,rfl,rfl,rfl,rfl,rfl,rfl,rfl,rfl⟩
  | cons q rest ih =>
    rw [World.dispatch_announce]
    split_ifs with hlate hdead
    · refine ⟨popped,h.keep (.finishPass ?_)⟩
      exact ⟨hq.symm,rfl,rfl,rfl,rfl,rfl,rfl,rfl,rfl,rfl⟩
    · refine ih (h.pop hq rfl rfl rfl rfl ?_) rfl
      simp [hdead,World.handed]
    · refine ⟨popped++[q],h.pop hq rfl rfl rfl rfl ?_⟩
      rw [World.handed_emit _ (announce_hands q.msg)]
      simp [hdead,World.handed]

theorem History.readAll (h : History cbor frames tail w popped lost done todo)
    (hopen : w.conn.inputClosed=false) :
    History cbor frames tail w.readAll popped lost done todo :=
  ⟨h.split,fun _ => by
      rw [show w.readAll.received=w.received from rfl,h.bytes hopen]
      simp [World.readAll],
    h.decoded,h.kept,h.handed,h.covered,h.pushes,h.keys,h.closed,h.ended⟩

theorem History.closeInput (h : History cbor frames tail w popped lost done todo)
    (hopen : w.conn.inputClosed=false) (hok : ∀ f∈frames,f.Ok cbor)
    (hin : w.received <+: wire frames++tail) (hover : w.oversized=true) (n : Nat) :
    History cbor frames tail (w.closeInput (.oversized n)) popped lost done todo := by
  have hbuf := h.buffer hopen hin
  rw [World.oversized,decide_eq_true_eq] at hover
  obtain ⟨hlen,hbig⟩ := hover
  have htodo : todo=[] := by
    cases htodo : todo with
    | nil => rfl
    | cons f rest =>
      have hf := (hok f (by simp [h.split,htodo])).small
      obtain ⟨more,hmore⟩ := hbuf
      have hp := payloadLen_append hlen more
      rw [hmore,htodo,wire_cons,List.append_assoc,payloadLen_encodeFrame hf] at hp
      omega
  rw [htodo,wire_nil,List.nil_append] at hbuf
  obtain ⟨more,hmore⟩ := hbuf
  have hhead : FrameHeaderSize≤tail.length ∧ MaxPayloadSize<payloadLen tail := by
    rw [← hmore,payloadLen_append hlen,List.length_append]
    omega
  refine ⟨h.split,(fun hn => nomatch hn),h.decoded,h.kept,?_,h.covered,h.pushes,h.keys,
    fun _ _ => ⟨htodo,hhead⟩,fun ha => ⟨rfl,(h.ended ha).2⟩⟩
  rw [← h.handed]
  simp [World.handed,World.closeInput,World.emit,Signal.hands]

variable (hok : ∀ f∈frames, f.Ok cbor) (htail : tryDecodeFrame cbor tail=none)

include hok htail in
theorem History.decodeFrames (h : History cbor frames tail w popped lost done todo)
    (hin : w.received <+: wire frames++tail) (now : Clock) :
    ∃ popped done todo, History cbor frames tail (w.decodeFrames cbor now)
      popped lost done todo := by
  rw [World.decodeFrames]
  split_ifs with hclosed
  · obtain ⟨popped,hd⟩ := h.dispatch now.dispatch true
    exact ⟨popped,done,todo,hd⟩
  have hopen : w.conn.inputClosed=false := by simpa using hclosed
  obtain ⟨done,todo,hd,hstill⟩ := h.decodeLoop hopen hok htail hin (w.conn.budgetMs.tdiv 2)
    now.decoding w.conn.readBuffer.length
  dsimp only
  split_ifs with hover
  · exact ⟨popped,done,todo,hd.closeInput hstill hok hin hover _⟩
  · obtain ⟨popped,hp⟩ := hd.dispatch now.dispatch true
    exact ⟨popped,done,todo,hp⟩

include hok htail in
theorem History.drain (h : History cbor frames tail w popped lost done todo)
    (hin : w.received <+: wire frames++tail) (now : Clock) :
    ∃ popped done todo, History cbor frames tail (w.drain cbor now) popped lost done todo := by
  have hentered : ∀ a b c,History cbor frames tail
      { w with conn := { w.conn with drainQueued := a, dispatching := b, blockedReported := c } }
      popped lost done todo := fun a b c =>
    h.keep ⟨rfl,rfl,rfl,rfl,rfl,rfl,rfl,rfl,rfl,rfl⟩
  rw [World.drain]
  dsimp only
  split_ifs with hbusy hclosed
  · exact ⟨popped,done,todo,hentered false _ _⟩
  · exact (hentered false true false).decodeFrames hok htail hin now
  · exact ((hentered false true false).readAll (by simpa using hclosed)).decodeFrames hok htail hin
      now

include hok htail in
/-- Whatever happens next keeps the history. -/
theorem History.step (h : History cbor frames tail w popped lost done todo)
    (hin : w.received <+: wire frames++tail) (a : Action) :
    ∃ popped lost done todo,
      History cbor frames tail (step cbor w a) popped lost done todo := by
  rw [Ipc.step.eq_def]
  by_cases hdel : w.deleted
  · rw [if_pos hdel]
    exact ⟨popped,lost,done,todo,h⟩
  rw [if_neg hdel]
  cases a with
  | arrive bytes =>
    refine ⟨popped,lost,done,todo,h.split,fun hc => ?_,h.decoded,h.kept,h.handed,h.covered,
      h.pushes,h.keys,h.closed,h.ended⟩
    simp only [h.bytes hc,List.append_assoc]
  | readyRead =>
    dsimp only
    rw [World.onReadyRead]
    split_ifs with hc
    · refine ⟨popped,lost,done,todo,h.split,fun hn => ?_,h.decoded,h.kept,h.handed,
        h.covered,h.pushes,h.keys,h.closed,h.ended⟩
      simp [hc] at hn
    · exact ⟨popped,lost,done,todo,(h.readAll (by simpa using hc)).keep (.emit (.refl _) rfl _)⟩
  | drain now =>
    dsimp only
    split_ifs
    · exact ⟨popped,lost,done,todo,h⟩
    · have hw : History cbor frames tail { w with posted := w.posted-1 } popped lost done todo :=
        h.keep ⟨rfl,rfl,rfl,rfl,rfl,rfl,rfl,rfl,rfl,rfl⟩
      obtain ⟨popped,done,todo,hd⟩ := hw.drain hok htail hin now
      exact ⟨popped,lost,done,todo,hd⟩
  | stallCheck =>
    refine ⟨popped,lost,done,todo,h.keep ?_⟩
    dsimp only
    rw [World.onStallCheck]
    split_ifs
    · exact .refl w
    · apply SameInput.emit _ rfl
      exact ⟨rfl,rfl,rfl,rfl,rfl,rfl,rfl,rfl,rfl,rfl⟩
  | socketLost => exact ⟨popped,lost,done,todo,h.keep ((SameInput.refl w).reportDisconnect _)⟩
  | abort =>
    refine ⟨popped,lost++w.conn.queue,done,todo,h.split,(fun hn => nomatch hn),?_,
      (fun hn => nomatch hn),h.handed,?_,?_,(fun _ _ hn => nomatch hn),(fun _ hn => nomatch hn),
      fun _ => ⟨rfl,rfl⟩⟩
    · simpa [World.abort] using h.decoded
    · simpa [World.abort] using h.covered
    · simpa [World.abort] using h.pushes
  | setDispatchBudgetMs ms =>
    exact ⟨popped,lost,done,todo,h.keep ⟨rfl,rfl,rfl,rfl,rfl,rfl,rfl,rfl,rfl,rfl⟩⟩
  | setCoalesceIncoming on =>
    exact ⟨popped,lost,done,todo,h.keep ⟨rfl,rfl,rfl,rfl,rfl,rfl,rfl,rfl,rfl,rfl⟩⟩
  | slotsReturn now deeper =>
    dsimp only
    cases w.calls with
    | nil => exact ⟨popped,lost,done,todo,h⟩
    | cons call calls =>
      have hw : History cbor frames tail { w with calls } popped lost done todo :=
        h.keep ⟨rfl,rfl,rfl,rfl,rfl,rfl,rfl,rfl,rfl,rfl⟩
      cases call with
      | slot => exact ⟨popped,lost,done,todo,hw⟩
      | readyRead =>
        dsimp only
        rw [World.afterActivity]
        split_ifs
        · refine ⟨popped,lost,done,todo,hw.keep (.emit ?_ rfl _)⟩
          exact ⟨rfl,rfl,rfl,rfl,rfl,rfl,rfl,rfl,rfl,rfl⟩
        · exact ⟨popped,lost,done,todo,hw⟩
        · obtain ⟨popped,done,todo,hd⟩ := hw.drain hok htail hin now
          exact ⟨popped,lost,done,todo,hd⟩
      | decoded =>
        obtain ⟨popped,hd⟩ := hw.dispatch now.dispatch true
        exact ⟨popped,lost,done,todo,hd⟩
      | dispatched =>
        obtain ⟨popped,hd⟩ := hw.dispatch now.dispatch false
        exact ⟨popped,lost,done,todo,hd⟩
      | passed => exact ⟨popped,lost,done,todo,hw.keep ((SameInput.refl _).leave .passed)⟩
  | delete =>
    exact ⟨popped,lost,done,todo,h.split,h.bytes,h.decoded,h.kept,h.handed,h.covered,
      h.pushes,h.keys,h.closed,h.ended⟩

/-! # Runs -/

variable (cbor) in
theorem World.dispatch_received (elapsed : Nat → Int) (first : Bool) (w : World V)
    (queue : List (Queued V)) :
    (w.dispatch cbor elapsed first queue).received=w.received ∧
      (w.dispatch cbor elapsed first queue).deleted=w.deleted ∧
      (w.dispatch cbor elapsed first queue).aborted=w.aborted := by
  induction queue generalizing w with
  | nil =>
    have hsame := (SameInput.refl { w with conn := { w.conn with queue := [] } }).finishPass
    exact ⟨hsame.received,hsame.deleted,hsame.aborted⟩
  | cons q rest ih =>
    rw [World.dispatch_announce]
    split_ifs
    · have hsame := (SameInput.refl { w with conn := { w.conn with queue := q::rest } }).finishPass
      exact ⟨hsame.received,hsame.deleted,hsame.aborted⟩
    · exact ih _
    · exact ⟨rfl,rfl,rfl⟩

variable (cbor) in
theorem World.drain_received (now : Clock) (w : World V) :
    (w.drain cbor now).received=w.received ∧ (w.drain cbor now).deleted=w.deleted ∧
      (w.drain cbor now).aborted=w.aborted := by
  simp only [World.drain,World.decodeFrames]
  split_ifs <;> first | exact ⟨rfl,rfl,rfl⟩ | exact World.dispatch_received _ _ _ _ _

end EmuleQt.Ipc
