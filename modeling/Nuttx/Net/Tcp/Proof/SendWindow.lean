import Nuttx.Library.Runs
import Nuttx.Net.Tcp.Proof.SendStream

/-!
# The window of the peer

A segment is cut to the window that the peer has advertised, whatever is in flight already.
-/

namespace Nuttx.Tcp

open Net

structure Flow where
  sender : Sender
  lastAck : UInt32

namespace Flow

def inFlight (flow : Flow) (seqno : UInt32) : Int := (seqno - flow.lastAck).toBitVec.toInt

def step (cfg : Config) (watermark : Nat) (domain : Domain) (flow : Flow) (event : SendEvent) : Flow where
  sender := (flow.sender.step cfg watermark domain event).1
  lastAck :=
    match event with
    | .segment dev iplen =>
      let tcp := tcpHdr dev (iplen + dev.llhdrlen)
      if tcp.flags &&& tcpAck ≠ 0 then tcpGetsequence tcp.ackno else flow.lastAck
    | .write _ | .poll _ | .rexmit _ => flow.lastAck

/-- **The law of the window.** What is sent in a poll ends inside the last advertised window. -/
def WindowLaw (cfg : Config) (watermark : Nat) (domain : Domain) (flow : Flow) : SendEvent → Prop
  | .poll dev =>
    ∀ seg, (flow.sender.step cfg watermark domain (.poll dev)).2 = some seg →
      flow.inFlight seg.seqno + seg.data.length ≤ flow.sender.conn.sndWnd.toNat
  | .write _ | .rexmit _ | .segment _ _ => True

def room (flow : Flow) (seqno : UInt32) : Int := flow.sender.conn.sndWnd.toNat - flow.inFlight seqno

/-- When a poll keeps the law: nothing is in flight, or there is room for the rest of the buffer or for
a segment of full size. -/
def WindowOk (flow : Flow) : SendEvent → Prop
  | .poll _ =>
    ∀ wrb ∈ flow.sender.writeQ.head?, flow.sender.conn.state.established? = true →
      flow.sender.conn.sndWnd > 0 → wrb.pktlen.toUInt32 - wrb.sent.toUInt32 > 0 →
      flow.sender.conn.mss > 0 →
      flow.inFlight (flow.sender.conn.label wrb + wrb.sent.toUInt32) ≤ 0 ∨
        (wrb.pktlen.toUInt32 - wrb.sent.toUInt32).toNat ≤
          flow.room (flow.sender.conn.label wrb + wrb.sent.toUInt32) ∨
        flow.sender.conn.mss.toNat ≤ flow.room (flow.sender.conn.label wrb + wrb.sent.toUInt32)
  | .write _ | .rexmit _ | .segment _ _ => True

abbrev RunAll (cfg : Config) (watermark : Nat) (domain : Domain) : (Flow → SendEvent → Prop) → Flow →
    List SendEvent → Prop :=
  Runs.Along (step cfg watermark domain)

end Flow

theorem toNat_cut (a b : UInt32) : (if a > b then b else a).toNat = min a.toNat b.toNat := by
  split_ifs with h
  · have := UInt32.lt_iff_toNat_lt.mp h
    omega
  · have : ¬ b.toNat < a.toNat := fun hlt => h (UInt32.lt_iff_toNat_lt.mpr hlt)
    omega

theorem Conn.toNat_sndlen (conn : Conn) (wrb : Wrb) :
    (conn.sndlen wrb).toNat = min (min (wrb.pktlen.toUInt32 - wrb.sent.toUInt32).toNat conn.mss.toNat)
      conn.sndWnd.toNat := by
  unfold sndlen
  rw [toNat_cut, toNat_cut, UInt16.toNat_toUInt32, UInt16.toNat_toUInt32]

namespace Sender

variable {cfg : Config} {sender : Sender} {wrb : Wrb} {q : List Wrb}

theorem poll_eq (cfg : Config) (watermark : Nat) (domain : Domain) (sender : Sender) (dev : Dev) :
    (sender.step cfg watermark domain (.poll dev)).2 =
      let called := sender.trySend domain { dev with len := 0, sndlen := 0 } tcpPoll
      outgoing called.2.1 (tcpAppsend cfg called.1.conn called.2.1 called.2.2).2 := rfl

theorem poll_quiet (hquiet : ¬ (sender.conn.state.established? = true ∧ sender.writeQ ≠ [] ∧
    sender.conn.sndWnd > 0)) (watermark : Nat) (domain : Domain) (dev : Dev) :
    (sender.step cfg watermark domain (.poll dev)).2 = none := by
  have hnot : ¬ (sender.conn.state.established? = true ∧ tcpPoll &&& (tcpPoll ||| tcpRexmit) ≠ 0 ∧
      sender.writeQ ≠ [] ∧ sender.conn.sndWnd > 0) := fun h => hquiet ⟨h.1, h.2.2⟩
  have hfree : ¬ (0 : UInt16) > 0 := by decide
  rw [poll_eq, trySend, if_neg hfree, if_neg hnot]
  dsimp only
  rw [(tcpAppsend_plain cfg _ _ (.inr (.inl rfl))).1, tcpRexmitSend, if_neg, if_neg (by decide)]
  · rfl
  · exact fun h => absurd h.1 hfree

theorem poll_sends (hcfg : cfg.writeBuffers = true) (hcase : sender.writeQ = wrb :: q)
    (hstate : sender.conn.state.established? = true) (hwnd : sender.conn.sndWnd > 0) (watermark : Nat)
    (domain : Domain) (dev : Dev) :
    ∃ data, data.length = (sender.conn.sndlen wrb).toNat ∧
      (sender.step cfg watermark domain (.poll dev)).2 =
        if sender.conn.sndlen wrb = 0 then none
        else some ⟨sender.conn.label wrb + wrb.sent.toUInt32, data⟩ := by
  have hsends : sender.conn.state.established? = true ∧ tcpPoll &&& (tcpPoll ||| tcpRexmit) ≠ 0 ∧
      sender.writeQ ≠ [] ∧ sender.conn.sndWnd > 0 :=
    ⟨hstate, by decide, by rw [hcase]; exact List.cons_ne_nil _ _, hwnd⟩
  have hfree : ¬ (0 : UInt16) > 0 := by decide
  rw [poll_eq, trySend, if_neg hfree, if_pos hsends]
  dsimp only
  generalize ({ dev with len := 0, sndlen := 0 } : Dev) = dev
  obtain ⟨hdev, hsender⟩ := send_of_cons hcase domain dev
  have hsndseq : (sender.send domain dev).1.conn.sndseq =
      tcpSetsequence (sender.conn.label wrb + wrb.sent.toUInt32) := by
    rw [hsender]
    dsimp only
    split_ifs <;> rfl
  have hbound : (sender.conn.sndlen wrb).toNat < 2 ^ 16 := by
    rw [Conn.toNat_sndlen]
    have := sender.conn.sndWnd.toNat_lt
    omega
  have hsndlen : (sender.send domain dev).2.sndlen.toNat = (sender.conn.sndlen wrb).toNat := by
    rw [hdev]
    change (sender.conn.sndlen wrb).toUInt16.toNat = _
    rw [UInt32.toNat_toUInt16]
    exact Nat.mod_eq_of_lt hbound
  obtain ⟨hout, -, -, hkept⟩ := tcpAppsend_plain cfg (sender.send domain dev).1.conn
    (sender.send domain dev).2 (.inl rfl : Plain (tcpPoll &&& ~~~tcpPoll))
  refine ⟨(sender.send domain dev).2.bytes (sender.send domain dev).2.appdata
    (sender.send domain dev).2.sndlen.toNat, by rw [Dev.length_bytes, hsndlen], ?_⟩
  rw [hout, tcpRexmitSend]
  by_cases hzero : sender.conn.sndlen wrb = 0
  · have hnone : ¬ (sender.send domain dev).2.sndlen > 0 := by
      rw [gt_iff_lt, UInt16.lt_iff_toNat_lt, hsndlen, hzero]
      decide
    rw [if_neg fun h => hnone h.1, if_neg (by decide), if_pos hzero]
    rfl
  · have hsome : (sender.send domain dev).2.sndlen > 0 := by
      rw [gt_iff_lt, UInt16.lt_iff_toNat_lt, hsndlen]
      rw [← UInt32.toNat_inj] at hzero
      exact Nat.pos_of_ne_zero hzero
    rw [if_pos ⟨hsome, .inl hcfg⟩, if_neg hzero, outgoing, Option.map_some, tcpSend, hkept, hsndseq,
      tcpGetsequence_tcpSetsequence]

end Sender

namespace Flow

theorem add_min_le_iff (held : Int) (rest mss wnd : Nat) :
    held + ((min (min rest mss) wnd : Nat) : Int) ≤ wnd ↔
      held ≤ 0 ∨ (rest : Int) ≤ wnd - held ∨ (mss : Int) ≤ wnd - held := by
  omega

theorem windowLaw_iff {cfg : Config} (hcfg : cfg.writeBuffers = true) (watermark : Nat)
    (domain : Domain) (flow : Flow) (event : SendEvent) :
    flow.WindowLaw cfg watermark domain event ↔ flow.WindowOk event := by
  cases event with
  | write data => exact Iff.rfl
  | rexmit dev => exact Iff.rfl
  | segment dev iplen => exact Iff.rfl
  | poll dev =>
    unfold WindowLaw WindowOk
    dsimp only
    by_cases hsends : flow.sender.conn.state.established? = true ∧ flow.sender.writeQ ≠ [] ∧
        flow.sender.conn.sndWnd > 0
    · obtain ⟨hstate, hne, hwnd⟩ := hsends
      cases hcase : flow.sender.writeQ with
      | nil => exact absurd hcase hne
      | cons wrb q =>
        obtain ⟨data, hdata, hseg⟩ := Sender.poll_sends hcfg hcase hstate hwnd watermark domain dev
        have hmin := flow.sender.conn.toNat_sndlen wrb
        have hhead : ∀ P : Wrb → Prop, (∀ wrb0 ∈ (wrb :: q).head?, P wrb0) ↔ P wrb := fun P =>
          ⟨fun h => h wrb rfl, fun h wrb0 hwrb0 => Option.some.inj hwrb0 ▸ h⟩
        rw [hseg, hhead, imp_iff_right hstate, imp_iff_right hwnd]
        by_cases hzero : flow.sender.conn.sndlen wrb = 0
        · rw [if_pos hzero]
          refine iff_of_true (fun seg hseg => by cases hseg) fun hrest hmss => ?_
          have hrest' := UInt32.lt_iff_toNat_lt.mp hrest
          have hmss' := UInt16.lt_iff_toNat_lt.mp hmss
          have hwnd' := UInt16.lt_iff_toNat_lt.mp hwnd
          rw [← UInt32.toNat_inj, hmin] at hzero
          simp only [UInt32.toNat_zero, UInt16.toNat_zero] at hrest' hmss' hwnd' hzero
          omega
        · have hpos : wrb.pktlen.toUInt32 - wrb.sent.toUInt32 > 0 ∧ flow.sender.conn.mss > 0 := by
            rw [← UInt32.toNat_inj, hmin, UInt32.toNat_zero] at hzero
            rw [gt_iff_lt, gt_iff_lt, UInt32.lt_iff_toNat_lt, UInt16.lt_iff_toNat_lt, UInt32.toNat_zero,
              UInt16.toNat_zero]
            omega
          rw [if_neg hzero, imp_iff_right hpos.1, imp_iff_right hpos.2]
          have hfits := add_min_le_iff (flow.inFlight (flow.sender.conn.label wrb + wrb.sent.toUInt32))
            (wrb.pktlen.toUInt32 - wrb.sent.toUInt32).toNat flow.sender.conn.mss.toNat
            flow.sender.conn.sndWnd.toNat
          rw [← hmin, ← hdata] at hfits
          refine Iff.trans ⟨fun h => h _ rfl, fun h seg hseg => ?_⟩ hfits
          obtain rfl := Option.some.inj hseg
          exact h
    · rw [Sender.poll_quiet hsends]
      refine iff_of_true (fun seg hseg => by cases hseg) fun wrb hhead hstate hwnd => ?_
      refine absurd ⟨hstate, fun hnil => ?_, hwnd⟩ hsends
      rw [hnil] at hhead
      cases hhead

/-- **The window is kept by chance.** In every run of a write-buffered sender the segments end inside
the last advertised window iff before each poll there is nothing in flight, or room in the window for
what is left of the buffer or for a segment of full size. -/
theorem window_kept_iff {cfg : Config} (hcfg : cfg.writeBuffers = true) (watermark : Nat)
    (domain : Domain) (flow : Flow) (events : List SendEvent) :
    RunAll cfg watermark domain (WindowLaw cfg watermark domain) flow events ↔
      RunAll cfg watermark domain WindowOk flow events :=
  Runs.along_congr (windowLaw_iff hcfg watermark domain) flow events

instance (flow : Flow) (event : SendEvent) : Decidable (flow.WindowOk event) :=
  match event with
  | .poll _ => inferInstanceAs (Decidable (∀ wrb ∈ flow.sender.writeQ.head?, _))
  | .write _ | .rexmit _ | .segment _ _ => .isTrue trivial

def narrowFlow : Flow := ⟨⟨{ smallConn with sndWnd := 4 }, [], []⟩, 5⟩

def ackNineFour : Dev :=
  received 0x0a000001
    [69, 0, 0, 40, 0, 0, 0, 0, 64, 6, 102, 206, 10, 0, 0, 2, 10, 0, 0, 1,
      4, 0, 0, 80, 0, 0, 0, 0, 0, 0, 0, 9, 80, 16, 0, 4, 151, 117, 0, 0]

theorem window_kept_acked :
    RunAll bufferConfig 3 .inet (WindowLaw bufferConfig 3 .inet) narrowFlow
      [.write [0, 1, 2, 3, 4, 5, 6, 7], .poll idleDev, .segment ackNineFour 20, .poll idleDev] :=
  (window_kept_iff rfl 3 .inet narrowFlow _).mpr
    ⟨by decide, by decide, by decide, by decide, trivial⟩

/-- **The window is overrun.** Eight bytes are written and the window has room for four. Two polls send
all of them with nothing acknowledged in between. -/
theorem window_overrun :
    ¬ RunAll bufferConfig 3 .inet (WindowLaw bufferConfig 3 .inet) narrowFlow
      [.write [0, 1, 2, 3, 4, 5, 6, 7], .poll idleDev, .poll idleDev] := by
  rintro ⟨-, -, hlaw, -⟩
  exact absurd ((windowLaw_iff rfl 3 .inet _ _).mp hlaw) (by decide)

end Flow

end Nuttx.Tcp
