import Lobcore.Replays

/-!
A message reaches a session as the note its payload spells: the accessors of its view all
return, and what the session does depends on what they read and on nothing else.
-/
namespace Lobcore.Handlers

open Checked OrderTypes Payloads SessionStats Sessions Replays

/-- The handler of an order message. -/
def order (s : Session) (l : UInt16) : Order → Exec (Bool × Session)
  | .add id side px qty => s.add l id side px qty
  | .execute id qty => s.execute l id qty
  | .cancel id qty => s.cancel l id qty
  | .delete id => s.delete l id
  | .replace old new px qty => s.replace l old new px qty

/-- The handler of a message, its fields read. -/
def perform (s : Session) : Body → Exec (Bool × Session)
  | .system code ts => .ok (false, s.system code ts)
  | .directory l stock => do return (false, ← s.directory l stock)
  | .action l state => do return (false, ← s.action l state)
  | .order l o => order s l o
  | .print l => do return (false, ← s.countPrint l)
  | .unknown => .ok (false, { s with stats := s.stats.countUnknownType })

theorem headerLocate_ok (m : Msg) : m.locate = .ok (headerLocate m.raw) := by
  unfold Msg.locate headerLocate headerLen
  by_cases hlen : 11 ≤ m.raw.length
  · rw [if_pos hlen, if_pos hlen, be16_ok (by omega)]
    rfl
  · rw [if_neg hlen, if_neg hlen]

theorem headerTs_ok (m : Msg) : m.ts = .ok (headerTs m.raw) := by
  unfold Msg.ts headerTs headerLen
  by_cases hlen : 11 ≤ m.raw.length
  · rw [if_pos hlen, if_pos hlen, u48_ok (by omega)]
    rfl
  · rw [if_neg hlen, if_neg hlen]

/-- Every kind of message, its fields read from the payload. -/
theorem dispatch_eq (s : Session) (m : Msg) : s.dispatch m = perform s (body m) := by
  cases m with
  | system m =>
    have hlen := m.length_eq
    simp only [Session.dispatch, SystemEvent.eventCode, View.ts,
      index_byte (show 11 < m.raw.length by omega), u48_ok (show 5 + 6 ≤ m.raw.length by omega),
      ok_bind, pure_eq_ok]
    rfl
  | directory m =>
    have hlen := m.length_eq
    simp only [Session.dispatch, View.locate, StockDirectory.stock, alpha8,
      be16_ok (show 1 + 2 ≤ m.raw.length by omega), slice_ok (show 11 + 8 ≤ m.raw.length by omega),
      ok_bind]
    rfl
  | action m =>
    have hlen := m.length_eq
    simp only [Session.dispatch, View.locate, TradingAction.tradingState,
      be16_ok (show 1 + 2 ≤ m.raw.length by omega), index_byte (show 19 < m.raw.length by omega),
      ok_bind]
    rfl
  | add m =>
    have hlen := m.length_eq
    simp only [Session.dispatch, View.locate, AddOrder.orderRef, AddOrder.side, AddOrder.price,
      AddOrder.shares, be16_ok (show 1 + 2 ≤ m.raw.length by omega),
      be64_ok (show 11 + 8 ≤ m.raw.length by omega), index_byte (show 19 < m.raw.length by omega),
      be32_ok (show 32 + 4 ≤ m.raw.length by omega), be32_ok (show 20 + 4 ≤ m.raw.length by omega),
      ok_bind, pure_eq_ok]
    rfl
  | addMpid m =>
    have hlen := m.length_eq
    simp only [Session.dispatch, View.locate, AddOrderMpid.orderRef, AddOrderMpid.side,
      AddOrderMpid.price, AddOrderMpid.shares, be16_ok (show 1 + 2 ≤ m.raw.length by omega),
      be64_ok (show 11 + 8 ≤ m.raw.length by omega), index_byte (show 19 < m.raw.length by omega),
      be32_ok (show 32 + 4 ≤ m.raw.length by omega), be32_ok (show 20 + 4 ≤ m.raw.length by omega),
      ok_bind, pure_eq_ok]
    rfl
  | exec m =>
    have hlen := m.length_eq
    simp only [Session.dispatch, View.locate, OrderExecuted.orderRef, OrderExecuted.executed,
      be16_ok (show 1 + 2 ≤ m.raw.length by omega), be64_ok (show 11 + 8 ≤ m.raw.length by omega),
      be32_ok (show 19 + 4 ≤ m.raw.length by omega), ok_bind]
    rfl
  | execPx m =>
    have hlen := m.length_eq
    simp only [Session.dispatch, View.locate, OrderExecutedWithPrice.orderRef,
      OrderExecutedWithPrice.executed, be16_ok (show 1 + 2 ≤ m.raw.length by omega),
      be64_ok (show 11 + 8 ≤ m.raw.length by omega),
      be32_ok (show 19 + 4 ≤ m.raw.length by omega), ok_bind]
    rfl
  | cancel m =>
    have hlen := m.length_eq
    simp only [Session.dispatch, View.locate, OrderCancel.orderRef, OrderCancel.cancelled,
      be16_ok (show 1 + 2 ≤ m.raw.length by omega), be64_ok (show 11 + 8 ≤ m.raw.length by omega),
      be32_ok (show 19 + 4 ≤ m.raw.length by omega), ok_bind]
    rfl
  | delete m =>
    have hlen := m.length_eq
    simp only [Session.dispatch, View.locate, OrderDelete.orderRef,
      be16_ok (show 1 + 2 ≤ m.raw.length by omega), be64_ok (show 11 + 8 ≤ m.raw.length by omega),
      ok_bind]
    rfl
  | replace m =>
    have hlen := m.length_eq
    simp only [Session.dispatch, View.locate, OrderReplace.originalRef, OrderReplace.newRef,
      OrderReplace.price, OrderReplace.shares, be16_ok (show 1 + 2 ≤ m.raw.length by omega),
      be64_ok (show 11 + 8 ≤ m.raw.length by omega), be64_ok (show 19 + 8 ≤ m.raw.length by omega),
      be32_ok (show 31 + 4 ≤ m.raw.length by omega), be32_ok (show 27 + 4 ≤ m.raw.length by omega),
      ok_bind]
    rfl
  | trade m => simp only [Session.dispatch, headerLocate_ok, Msg.raw, ok_bind, body, perform]
  | cross m => simp only [Session.dispatch, headerLocate_ok, Msg.raw, ok_bind, body, perform]
  | broken m => simp only [Session.dispatch, headerLocate_ok, Msg.raw, ok_bind, body, perform]
  | other m known => simp only [Session.dispatch, headerLocate_ok, Msg.raw, ok_bind, body, perform]
  | unknown m => rfl

/-- The session with the counters of a message's header moved. -/
def noted (s : Session) (n : Note) : Session := { s with stats := s.stats.noteMessage n.ty n.ts }

theorem applyMsg_eq {s : Session} (h : s.stats.Sized) (m : Msg) :
    s.applyMsg m = perform (noted s (note m)) (body m) := by
  simp only [Session.applyMsg, Msg.ty_ok, headerTs_ok, ok_bind, Stats.countMessage_ok h]
  exact dispatch_eq _ m

end Lobcore.Handlers
