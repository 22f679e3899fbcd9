import EmuleQt.Ipc.IpcProgress

namespace EmuleQt.Ipc

open Framework

variable {V : Type} {cbor : Cbor V} {frames done todo : List (Frame V)} {tail : List UInt8}
  {w : World V} {popped lost : List (Queued V)}

/-- What the slots of a connection have got of the frames the peer sent: `popped` entries left the
queue in stream order, the live ones as signals; `lost` were on the queue of an abort. -/
structure Delivered (cbor : Cbor V) (frames : List (Frame V)) (w : World V)
    (popped lost : List (Queued V)) : Prop where
  order : (popped ++ lost ++ w.conn.queue).map Queued.msg <+: frames.map Frame.message
  handed : w.handed = ((popped.filter Queued.live).map Queued.msg).map (announce cbor)
  kept : w.aborted = false → lost = []
  pushes : ∀ q ∈ popped ++ lost ++ w.conn.queue, q.live = false → q.pushKey cbor ≠ 0
  replaced : ∀ before q after, popped ++ lost ++ w.conn.queue = before ++ q :: after →
    q.live = false → ∃ q' ∈ after, q'.live = true ∧ q'.pushKey cbor = q.pushKey cbor
  newest : w.aborted = false → w.conn.queue = [] → ∀ key,
    (popped.filter fun q => decide (q.pushKey cbor = key)).getLast? =
      ((popped.filter Queued.live).filter fun q => decide (q.pushKey cbor = key)).getLast?
  closed : w.conn.inputClosed = true → w.aborted = false →
    (popped ++ lost ++ w.conn.queue).map Queued.msg = frames.map Frame.message

theorem History.delivered (h : History cbor frames tail w popped lost done todo) :
    Delivered cbor frames w popped lost where
  order := by
    rw [h.decoded,h.split,List.map_append]
    exact List.prefix_append _ _
  handed := h.handed
  kept := h.kept
  pushes := h.pushes
  replaced := by
    intro before q after hsplit hdead
    exact Covered.exists_later (hsplit ▸ h.covered) hdead
  newest := by
    intro hab hq key
    have hcov := h.covered
    rw [h.kept hab,hq,List.append_nil,List.append_nil] at hcov
    exact hcov.getLast key
  closed := by
    intro hc hab
    rw [h.decoded,h.split,(h.closed hc hab).1,List.append_nil]

end EmuleQt.Ipc
