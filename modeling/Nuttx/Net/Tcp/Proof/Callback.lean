import Nuttx.Net.Tcp.Input

/-!
# What the callbacks leave alone

Whatever the callbacks of a connection do, the receive sequence number is the same after them and the
connection is in the state it was in, or closed.
-/

namespace Nuttx.Tcp

open Net

structure Kept (conn conn' : Conn) : Prop where
  rcvseq : conn'.rcvseq = conn.rcvseq
  state : conn'.state = conn.state ∨ conn'.state = .closed

theorem Kept.refl (conn : Conn) : Kept conn conn := ⟨rfl, .inl rfl⟩

theorem Kept.trans {a b c : Conn} (hab : Kept a b) (hbc : Kept b c) : Kept a c := by
  refine ⟨hbc.rcvseq.trans hab.rcvseq, ?_⟩
  rcases hbc.state with h | h
  · rw [h]
    exact hab.state
  · exact .inr h

theorem devifConnEvent_kept (list : List Callback) (conn : Conn) (dev : Dev) (flags : UInt16) :
    Kept conn (devifConnEvent list conn dev flags).1 := by
  fun_induction devifConnEvent list conn dev flags with
  | case1 => exact .refl _
  | case2 => exact .refl _
  | case3 cb list conn dev flags hflags handler hevent htrigger after ih =>
    exact .trans ⟨handler.rcvseq_event conn dev flags, handler.state_event conn dev flags⟩ ih
  | case4 cb list conn dev flags hflags handler hevent htrigger ih => exact ih
  | case5 cb list conn dev flags hflags hevent ih => exact ih

variable (cfg : Config)
include cfg

variable (iobs : Iobs) (conn : Conn)

theorem tcpDatahandler_cases (buffer : List UInt8) :
    tcpDatahandler cfg iobs conn buffer =
        ({ conn with readahead := conn.readahead ++ [buffer] }, buffer.length) ∨
      tcpDatahandler cfg iobs conn buffer = (conn, 0) := by
  unfold tcpDatahandler
  dsimp only
  split_ifs
  · exact .inl rfl
  · exact .inr rfl
  · exact .inr rfl
  · exact .inl rfl
  all_goals exact .inr rfl

theorem tcpDatahandler_kept (buffer : List UInt8) :
    Kept conn (tcpDatahandler cfg iobs conn buffer).1 := by
  rcases tcpDatahandler_cases cfg iobs conn buffer with h | h
  · rw [h]
    exact ⟨rfl, .inl rfl⟩
  · rw [h]
    exact .refl conn

theorem tcpDataEvent_kept (dev : Dev) (flags : UInt16) :
    Kept conn (tcpDataEvent cfg iobs conn dev flags).1 := by
  unfold tcpDataEvent
  split
  · exact tcpDatahandler_kept cfg iobs conn _
  · exact .refl conn

theorem offerData_kept (app : App) (conn : Conn) (dev : Dev) (flags : UInt16) :
    Kept conn (offerData cfg app conn dev flags).1 := by
  have hlist := devifConnEvent_kept app.list conn dev flags
  unfold offerData
  dsimp only
  split
  · exact hlist.trans (tcpDataEvent_kept cfg app.iobs _ _ _)
  · exact hlist

theorem tcpCallback_kept (app : App) (conn : Conn) (dev : Dev) (flags : UInt16) :
    Kept conn (tcpCallback cfg app conn dev flags).1 := by
  have hoffer := offerData_kept cfg app conn dev flags
  unfold tcpCallback
  dsimp only
  split
  · exact hoffer.trans (devifConnEvent_kept _ _ _ _)
  · exact hoffer

theorem tcpAppsend_rcvseq (conn : Conn) (dev : Dev) (result : UInt16) :
    (tcpAppsend cfg conn dev result).1.rcvseq = conn.rcvseq := by
  unfold tcpAppsend Conn.setTxUnacked
  split_ifs <;> rfl

end Nuttx.Tcp
