import Nuttx.Library.Runs
import Nuttx.Net.Tcp.Proof.Payload

/-!
# What is acknowledged was taken

The receive sequence number may move over payload only when the payload was taken by a callback or
stored in the read-ahead queue.
-/

namespace Nuttx.Tcp

open Net

/-- The data callbacks are offered the payload and take all of it. -/
def Consumes (app : App) (conn : Conn) (dev : Dev) (flags : UInt16) : Prop :=
  let called := devifConnEvent app.list conn dev flags
  flags &&& tcpNewdata ≠ 0 ∧ (called.2.2 &&& tcpNewdata = 0 ∨ called.2.1.len = 0)

/-- What the data callbacks have left is whole in the read-ahead queue. -/
def Stored (cfg : Config) (app : App) (conn : Conn) (dev : Dev) (flags : UInt16) : Prop :=
  let called := devifConnEvent app.list conn dev flags
  (offerData cfg app conn dev flags).1.readahead =
    called.1.readahead ++ [called.2.1.bytes called.2.1.appdata called.2.1.len.toNat]

/-- The answers of the buffer pool with which a payload is stored: without throttling only if nothing
else is in the queue. -/
def Iobs.HasRoom (cfg : Config) (iobs : Iobs) (readahead : List (List UInt8)) : Prop :=
  iobs.tryaddQueue = true ∧
    if iobs.tryalloc true then iobs.trycopyin true = true
    else cfg.iobThrottle = true ∧ readahead = [] ∧ iobs.tryalloc false = true ∧
      iobs.trycopyin false = true

/-- The data callbacks leave something, and the pool has room for it. -/
def Buffers (cfg : Config) (app : App) (conn : Conn) (dev : Dev) (flags : UInt16) : Prop :=
  let called := devifConnEvent app.list conn dev flags
  called.2.2 &&& tcpNewdata ≠ 0 ∧ called.2.1.len ≠ 0 ∧ app.iobs.HasRoom cfg called.1.readahead

/-- The connection callbacks ask for an acknowledgement; if there is no event for them, it is asked for
already. -/
def Asks (app : App) (conn : Conn) (dev : Dev) (flags : UInt16) : Prop :=
  if flags &&& tcpConnEvents ≠ 0 then
    (devifConnEvent app.connevents conn dev flags).2.2 &&& tcpSndack ≠ 0
  else flags &&& tcpSndack ≠ 0

/-- The callbacks ask for an acknowledgement of a payload for which the pool has no room. The connection
callbacks come behind the data callbacks, and find `TCP_SNDACK` cleared if these have left something. -/
def AsksRefused (app : App) (conn : Conn) (dev : Dev) (flags : UInt16) : Prop :=
  let called := devifConnEvent app.list conn dev flags
  if called.2.2 &&& tcpNewdata = 0 then Asks app called.1 called.2.1 called.2.2
  else if called.2.1.len = 0 then
    Asks app called.1 { called.2.1 with len := 0 } (called.2.2 &&& ~~~tcpNewdata ||| tcpSndack)
  else Asks app called.1 { called.2.1 with len := 0 } (called.2.2 &&& ~~~tcpNewdata &&& ~~~tcpSndack)

namespace Outcome

def Accepts (cfg : Config) (app : App) (pay : Dev) (outcome : Outcome) : Prop :=
  ∃ conn dev flags next, outcome = .callback conn dev flags next ∧
    dev.appdata = pay.appdata ∧ dev.len = pay.len ∧
    (Consumes app conn dev flags ∨ Stored cfg app conn dev flags)

/-- The callbacks do not take the payload of the event, and the pool does not keep it. -/
def Refuses (cfg : Config) (app : App) (outcome : Outcome) : Prop :=
  ∃ conn dev flags next, outcome = .callback conn dev flags next ∧
    ¬ Consumes app conn dev flags ∧ ¬ Buffers cfg app conn dev flags

def AcksRefused (cfg : Config) (app : App) (outcome : Outcome) : Prop :=
  ∃ conn dev flags next, outcome = .callback conn dev flags next ∧
    (¬ Consumes app conn dev flags ∧ ¬ Buffers cfg app conn dev flags) ∧ AsksRefused app conn dev flags

end Outcome

structure Arrival where
  domain : Domain
  dev : Dev
  iplen : Nat
  app : App

namespace Arrival

def tcp (arrival : Arrival) : Hdr := tcpHdr arrival.dev (arrival.iplen + arrival.dev.llhdrlen)

def pay (arrival : Arrival) : Dev := payload arrival.dev arrival.tcp arrival.iplen

def outcome (cfg : Config) (arrival : Arrival) (conn : Conn) : Outcome :=
  tcpInput cfg ⟨some conn, false, false, 0⟩ arrival.app.accept arrival.domain arrival.dev arrival.iplen

def receive (cfg : Config) (arrival : Arrival) (conn : Conn) : Option Conn :=
  (finish cfg arrival.app arrival.domain arrival.dev (arrival.outcome cfg conn)).1

end Arrival

/-- **The law of reception.** A payload that was not accepted leaves `rcvseq` where it was. -/
def ReceiveLaw (cfg : Config) (arrival : Arrival) (conn : Conn) : Prop :=
  arrival.pay.len = 0 ∨ (arrival.outcome cfg conn).Accepts cfg arrival.app arrival.pay ∨
    ∀ conn', arrival.receive cfg conn = some conn' → conn'.rcvseq = conn.rcvseq

def Processed (cfg : Config) (arrival : Arrival) (conn : Conn) : Prop :=
  tcpChksum arrival.dev arrival.domain = 0xffff ∧
    (conn.state = .synRcvd ∨ arrival.tcp.flags &&& tcpCtl ≠ tcpSyn) ∧
    arrival.tcp.flags &&& tcpRst = 0 ∧ ¬ keepaliveProbe cfg arrival.tcp arrival.pay conn ∧
    ¬ outOfOrder arrival.tcp arrival.pay conn

structure ReceiveOk (cfg : Config) (arrival : Arrival) (conn : Conn) : Prop where
  synRcvd : conn.state = .synRcvd → ¬ (arrival.outcome cfg conn).Refuses cfg arrival.app
  fin : conn.state = .established → arrival.tcp.flags &&& tcpFin ≠ 0 ∧ conn.stopped = false →
    ¬ (arrival.outcome cfg conn).Refuses cfg arrival.app ∨ arrival.pay.len = 0xffff
  data : conn.state = .established → ¬ (arrival.tcp.flags &&& tcpFin ≠ 0 ∧ conn.stopped = false) →
    urgentBytes arrival.tcp arrival.pay conn = 0 ∧
      ¬ (arrival.outcome cfg conn).AcksRefused cfg arrival.app

section Callback

variable (cfg : Config) (app : App) (conn : Conn) (dev : Dev) (flags : UInt16)

theorem tcpDatahandler_of_room {iobs : Iobs} (hroom : iobs.HasRoom cfg conn.readahead)
    (buffer : List UInt8) : tcpDatahandler cfg iobs conn buffer =
      ({ conn with readahead := conn.readahead ++ [buffer] }, buffer.length) := by
  obtain ⟨hqueue, halloc⟩ := hroom
  rw [tcpDatahandler]
  split_ifs at halloc with hthrottled
  · simp [hthrottled, halloc, hqueue]
  · simp [hthrottled, halloc, hqueue]

theorem tcpDatahandler_of_no_room {iobs : Iobs} (hroom : ¬ iobs.HasRoom cfg conn.readahead)
    (buffer : List UInt8) : tcpDatahandler cfg iobs conn buffer = (conn, 0) := by
  rw [Iobs.HasRoom] at hroom
  rw [tcpDatahandler]
  dsimp only
  split_ifs with hthrottled hcopied hqueued hfallback hcopied hqueued
  · exact absurd ⟨hqueued, by rwa [if_pos hthrottled]⟩ hroom
  · rfl
  · rfl
  · refine absurd ⟨hqueued, ?_⟩ hroom
    rw [if_neg hthrottled]
    exact ⟨hfallback.1, hfallback.2.1, hfallback.2.2, hcopied⟩
  all_goals rfl

/-- **The read-ahead queue** gets the rest of a payload exactly if the pool has room for it. -/
theorem stored_iff_buffers : Stored cfg app conn dev flags ↔ Buffers cfg app conn dev flags := by
  rw [Stored, Buffers, offerData]
  generalize devifConnEvent app.list conn dev flags = called
  split_ifs with hnew
  · rw [and_iff_right hnew, tcpDataEvent]
    by_cases hlen : called.2.1.len = 0
    · rw [if_neg (by simp [hlen])]
      exact iff_of_false (by simp) fun h => h.1 hlen
    rw [if_pos (UInt16.pos_iff_ne_zero.mpr hlen), and_iff_right hlen]
    dsimp only
    by_cases hroom : app.iobs.HasRoom cfg called.1.readahead
    · rw [tcpDatahandler_of_room cfg called.1 hroom]
      exact iff_of_true rfl hroom
    · rw [tcpDatahandler_of_no_room cfg called.1 hroom]
      exact iff_of_false (by simp) hroom
  · exact iff_of_false (by simp) fun h => hnew h.1

theorem sndack_cleared (ret : UInt16) : (ret ||| tcpSndack) &&& ~~~tcpSndack = ret &&& ~~~tcpSndack := by
  apply UInt16.eq_of_toBitVec_eq
  ext i hi
  simp only [UInt16.toBitVec_and, UInt16.toBitVec_or, UInt16.toBitVec_not, BitVec.getElem_and,
    BitVec.getElem_or, BitVec.getElem_not]
  cases tcpSndack.toBitVec[i] <;> simp

/-- **A payload that the pool does not keep** is acknowledged only if the callbacks ask for it. -/
theorem sndack_iff_asksRefused (hbuffers : ¬ Buffers cfg app conn dev flags) :
    (tcpCallback cfg app conn dev flags).2.2 &&& tcpSndack ≠ 0 ↔ AsksRefused app conn dev flags := by
  have hasks : ∀ handled : Conn × Dev × UInt16,
      (if handled.2.2 &&& tcpConnEvents ≠ 0 then
        devifConnEvent app.connevents handled.1 handled.2.1 handled.2.2
      else handled).2.2 &&& tcpSndack ≠ 0 ↔ Asks app handled.1 handled.2.1 handled.2.2 := by
    intro handled
    rw [Asks]
    split_ifs <;> rfl
  rw [tcpCallback, hasks, offerData, AsksRefused]
  rw [Buffers] at hbuffers
  generalize devifConnEvent app.list conn dev flags = called at hbuffers ⊢
  dsimp only at hbuffers ⊢
  by_cases hnew : called.2.2 &&& tcpNewdata = 0
  · rw [if_neg (not_not.mpr hnew), if_pos hnew]
  rw [if_pos hnew, if_neg hnew, tcpDataEvent]
  by_cases hlen : called.2.1.len = 0
  · rw [if_neg (by simp [hlen]), if_pos hlen]
  have hroom : ¬ app.iobs.HasRoom cfg called.1.readahead := fun hroom => hbuffers ⟨hnew, hlen, hroom⟩
  have hpos := UInt16.pos_iff_ne_zero.mpr hlen
  dsimp only
  rw [if_pos hpos, if_neg hlen, tcpDatahandler_of_no_room cfg called.1 hroom]
  have hdropped : 0 < called.2.1.len.toNat := UInt16.lt_iff_toNat_lt.mp hpos
  simp only [hdropped, if_true, sndack_cleared]

end Callback

theorem netIncr32_eq_self_iff (seqno : Seqno) (n : UInt16) : netIncr32 seqno n = seqno ↔ n = 0 := by
  rw [← tcpGetsequence_injective.eq_iff, tcpGetsequence_netIncr32, ← UInt32.toNat_inj, UInt32.toNat_add,
    UInt16.toNat_toUInt32, ← UInt16.toNat_inj]
  have := (tcpGetsequence seqno).toNat_lt
  have := n.toNat_lt
  change _ ↔ n.toNat = 0
  omega

theorem seqno_add_sub_ne (seqno : UInt32) {skipped len : UInt16} (hlen : len ≠ 0) :
    seqno + skipped.toUInt32 + (len - skipped).toUInt32 ≠ seqno := by
  have hskipped := skipped.toNat_lt
  have hlt := len.toNat_lt
  have := seqno.toNat_lt
  rw [Ne, ← UInt16.toNat_inj] at hlen
  rw [Ne, ← UInt32.toNat_inj, UInt32.toNat_add, UInt32.toNat_add, UInt16.toNat_toUInt32,
    UInt16.toNat_toUInt32, UInt16.toNat_sub]
  change ¬ len.toNat = 0 at hlen
  omega

theorem ackData_rcvseq (cfg : Config) (tcp : Hdr) (conn : Conn) :
    (ackData cfg tcp conn).1.rcvseq = conn.rcvseq := by
  unfold ackData Conn.estimate Conn.setTxUnacked
  dsimp only
  split_ifs <;> rfl

theorem finish_callback_rcvseq (cfg : Config) (app : App) (domain : Domain) (packet : Dev) (conn : Conn)
    (dev : Dev) (flags : UInt16) (next : Next) :
    ∃ conn', (finish cfg app domain packet (.callback conn dev flags next)).1 = some conn' ∧
      ((∀ len, next ≠ .ackAppsend len) → conn'.rcvseq = conn.rcvseq) ∧
      ∀ len, next = .ackAppsend len → conn'.rcvseq =
        if (tcpCallback cfg app conn dev flags).2.2 &&& tcpSndack ≠ 0 then netIncr32 conn.rcvseq len
        else conn.rcvseq := by
  have hkept := (tcpCallback_kept cfg app conn dev flags).rcvseq
  cases next with
  | drop | lastAck | failed | ack => exact ⟨_, rfl, fun _ => hkept, fun len h => by cases h⟩
  | appsend =>
    exact ⟨_, rfl, fun _ => (tcpAppsend_rcvseq _ _ _ _).trans hkept, fun len h => by cases h⟩
  | ackAppsend len =>
    refine ⟨_, rfl, fun h => absurd rfl (h len), fun len' h => ?_⟩
    cases h
    rw [tcpAppsend_rcvseq]
    split_ifs
    · rw [hkept]
    · exact hkept

def Arrival.acked (cfg : Config) (arrival : Arrival) (conn : Conn) : Conn × UInt16 :=
  ackData cfg arrival.tcp (conn.updateWindow arrival.tcp)

variable {cfg : Config} {arrival : Arrival} {conn : Conn} {dev : Dev} {flags : UInt16} {c : Conn}

theorem outcome_of_processed (h : Processed cfg arrival conn) :
    arrival.outcome cfg conn = inputState cfg arrival.app.accept arrival.tcp arrival.pay arrival.iplen
      (arrival.acked cfg conn).1 (arrival.acked cfg conn).2 := by
  obtain ⟨hsum, hsyn, hrst, hprobe, horder⟩ := h
  refine (if_neg (not_not.mpr hsum)).trans ?_
  refine (if_neg (fun h => hsyn.elim h.1 (fun hne => hne h.2))).trans ?_
  exact (if_neg (not_not.mpr hrst)).trans ((if_neg hprobe).trans (if_neg horder))

theorem receive_of_not_processed
    (h : ¬ Processed cfg arrival conn) (conn' : Conn) (hconn' : arrival.receive cfg conn = some conn') :
    conn'.rcvseq = conn.rcvseq := by
  unfold Arrival.receive Arrival.outcome tcpInput inputFound tcpReset at hconn'
  dsimp only at hconn'
  split_ifs at hconn' with hsum hsyn hrst hrst' hstate hprobe horder
  · cases hconn'
    rfl
  · cases hconn'
    rfl
  · cases hconn'
    rfl
  · cases hconn'
  · obtain ⟨c, hc, hkept, -⟩ := finish_callback_rcvseq cfg arrival.app arrival.domain
      arrival.dev ((conn.updateWindow arrival.tcp).enter .closed) arrival.dev tcpAbort .drop
    have heq : c = conn' := Option.some.inj (hc.symm.trans hconn')
    rw [← heq]
    exact hkept (fun len hnext => by cases hnext)
  · cases hconn'
    rfl
  · cases hconn'
    rfl
  · refine absurd ⟨not_not.mp hsum, ?_, not_not.mp hrst', hprobe, horder⟩ h
    by_cases hrcvd : conn.state = .synRcvd
    · exact .inl hrcvd
    · exact .inr (fun hctl => hsyn ⟨hrcvd, hctl⟩)

theorem receiveLaw_of_moved
    {next : Next} (houtcome : arrival.outcome cfg conn = .callback c dev flags next)
    (hnext : ∀ len, next ≠ .ackAppsend len)
    (happdata : dev.appdata = arrival.pay.appdata) (hdev : dev.len = arrival.pay.len)
    (hlen : arrival.pay.len ≠ 0) :
    ReceiveLaw cfg arrival conn ↔
      ¬ (arrival.outcome cfg conn).Refuses cfg arrival.app ∨ c.rcvseq = conn.rcvseq := by
  obtain ⟨conn', hconn', hkept, -⟩ := finish_callback_rcvseq cfg arrival.app arrival.domain arrival.dev
    c dev flags next
  have hreceive : arrival.receive cfg conn = some conn' := by
    rw [Arrival.receive, houtcome, hconn']
  have haccepts : (arrival.outcome cfg conn).Accepts cfg arrival.app arrival.pay ↔
      ¬ (arrival.outcome cfg conn).Refuses cfg arrival.app := by
    rw [houtcome]
    constructor
    · rintro ⟨c1, d1, f1, n1, h1, -, -, htaken⟩ ⟨c2, d2, f2, n2, h2, hnot, hlost⟩
      obtain ⟨rfl, rfl, rfl, rfl⟩ := Outcome.callback.inj h1
      obtain ⟨rfl, rfl, rfl, rfl⟩ := Outcome.callback.inj h2
      exact htaken.elim hnot fun hstored => hlost ((stored_iff_buffers _ _ _ _ _).mp hstored)
    · intro hnot
      refine ⟨c, dev, flags, next, rfl, happdata, hdev, ?_⟩
      rw [stored_iff_buffers]
      by_contra htaken
      exact hnot ⟨c, dev, flags, next, rfl, not_or.mp htaken⟩
  unfold ReceiveLaw
  rw [or_iff_right hlen, haccepts, hreceive]
  refine or_congr_right ⟨fun h => ?_, fun h c' hc' => ?_⟩
  · rw [← hkept hnext]
    exact h conn' rfl
  · cases hc'
    rw [hkept hnext]
    exact h

theorem Outcome.Quiet.not_refuses {app : App} {outcome : Outcome}
    (hquiet : outcome.Quiet) : ¬ outcome.Refuses cfg app := by
  rintro ⟨c, dev, flags, next, h, -⟩
  exact hquiet c dev flags next h

theorem inputSynRcvd_accepted (cfg : Config) (tcp : Hdr) (conn : Conn) (hlen : dev.len > 0) :
    ∃ c, c.rcvseq = netIncr32 conn.rcvseq dev.len ∧
      inputSynRcvd cfg true tcp dev conn tcpAckdata =
        .callback c { dev with sndlen := 0 } (tcpConnected ||| tcpNewdata) .appsend := by
  unfold inputSynRcvd
  rw [if_pos (by decide), if_pos rfl]
  rw [if_pos hlen]
  refine ⟨_, ?_, rfl⟩
  split <;> rfl

theorem receiveLaw_synRcvd
    (h : Processed cfg arrival conn) (hstate : conn.state = .synRcvd) (hlen : arrival.pay.len ≠ 0) :
    ReceiveLaw cfg arrival conn ↔ ¬ (arrival.outcome cfg conn).Refuses cfg arrival.app := by
  have hacked : (arrival.acked cfg conn).1.state = .synRcvd := (ackData_state cfg _ _).trans hstate
  have hrcvseq : (arrival.acked cfg conn).1.rcvseq = conn.rcvseq := ackData_rcvseq cfg _ _
  have houtcome := outcome_of_processed h
  unfold inputState at houtcome
  rw [hacked] at houtcome
  have hflags : (arrival.acked cfg conn).2 = 0 ∨ (arrival.acked cfg conn).2 = tcpAckdata :=
    ackData_flags cfg _ _
  rcases hflags with hflags | hflags
  · -- no acknowledgement: the connection stays where it is
    rw [hflags] at houtcome
    have hunmoved : (arrival.outcome cfg conn).Quiet ∧
        ∀ conn', arrival.receive cfg conn = some conn' → conn'.rcvseq = conn.rcvseq := by
      unfold Arrival.receive
      rcases inputSynRcvd_of_zero cfg arrival.app.accept arrival.tcp arrival.pay
        (arrival.acked cfg conn).1 with hzero | hzero
      · rw [houtcome, hzero]
        exact ⟨fun _ _ _ _ h => Outcome.noConfusion h, fun c hc => by cases hc; exact hrcvseq⟩
      · rw [houtcome, hzero]
        exact ⟨quiet_drop _, fun c hc => by cases hc; exact hrcvseq⟩
    exact iff_of_true (.inr (.inr hunmoved.2)) hunmoved.1.not_refuses
  · rw [hflags] at houtcome
    cases haccept : arrival.app.accept with
    | false =>
      rw [haccept] at houtcome
      have houtcome : arrival.outcome cfg conn = .reset none := houtcome
      have hunmoved : (arrival.outcome cfg conn).Quiet ∧
          ∀ conn', arrival.receive cfg conn = some conn' → conn'.rcvseq = conn.rcvseq := by
        unfold Arrival.receive
        rw [houtcome]
        exact ⟨fun _ _ _ _ h => Outcome.noConfusion h, fun c hc => by cases hc⟩
      exact iff_of_true (.inr (.inr hunmoved.2)) hunmoved.1.not_refuses
    | true =>
      rw [haccept] at houtcome
      obtain ⟨c, hc, hcallback⟩ := inputSynRcvd_accepted cfg arrival.tcp (arrival.acked cfg conn).1
        (UInt16.pos_iff_ne_zero.mpr hlen)
      rw [receiveLaw_of_moved (houtcome.trans hcallback) (fun len hnext => by cases hnext) rfl rfl hlen,
        hc, hrcvseq, netIncr32_eq_self_iff, or_iff_left hlen]

theorem receiveLaw_fin (h : Processed cfg arrival conn) (hstate : conn.state = .established)
    (hfin : arrival.tcp.flags &&& tcpFin ≠ 0 ∧ conn.stopped = false) (hlen : arrival.pay.len ≠ 0) :
    ReceiveLaw cfg arrival conn ↔
      ¬ (arrival.outcome cfg conn).Refuses cfg arrival.app ∨ arrival.pay.len = 0xffff := by
  have hacked : (arrival.acked cfg conn).1.state = .established := (ackData_state cfg _ _).trans hstate
  have hrcvseq : (arrival.acked cfg conn).1.rcvseq = conn.rcvseq := ackData_rcvseq cfg _ _
  have hstopped : (arrival.acked cfg conn).1.stopped = conn.stopped := ackData_stopped cfg _ _
  have houtcome := outcome_of_processed h
  unfold inputState at houtcome
  rw [hacked] at houtcome
  unfold inputEstablished at houtcome
  rw [hstopped, if_pos hfin] at houtcome
  dsimp only at houtcome
  rw [if_pos (UInt16.pos_iff_ne_zero.mpr hlen)] at houtcome
  rw [receiveLaw_of_moved houtcome (fun len hnext => by cases hnext) rfl rfl hlen]
  refine or_congr_right ?_
  -- 65536 bytes are none
  rw [hrcvseq, netIncr32_eq_self_iff, ← UInt16.toNat_inj, ← UInt16.toNat_inj, UInt16.toNat_add]
  have := arrival.pay.len.toNat_lt
  change (arrival.pay.len.toNat + 1) % 65536 = 0 ↔ arrival.pay.len.toNat = 65535
  omega

theorem skipUrgent_rcvseq {tcp : Hdr}
    (hfin : ¬ (tcp.flags &&& tcpFin ≠ 0 ∧ conn.stopped = false)) (dev : Dev) :
    (skipUrgent tcp dev conn).1.rcvseq = netIncr32 conn.rcvseq (urgentBytes tcp dev conn) := by
  unfold skipUrgent urgentBytes
  rw [if_neg hfin]
  split_ifs
  · rfl
  · rfl
  · exact ((netIncr32_eq_self_iff _ _).mpr rfl).symm

theorem outcome_data (h : Processed cfg arrival conn) (hstate : conn.state = .established)
    (hfin : ¬ (arrival.tcp.flags &&& tcpFin ≠ 0 ∧ conn.stopped = false)) :
    ∃ c dev, c.rcvseq = netIncr32 conn.rcvseq (urgentBytes arrival.tcp arrival.pay conn) ∧
      dev.appdata = arrival.pay.appdata + (urgentBytes arrival.tcp arrival.pay conn).toNat ∧
      dev.len = arrival.pay.len - urgentBytes arrival.tcp arrival.pay conn ∧
      ((∃ flags, arrival.outcome cfg conn = .callback c dev flags (.ackAppsend dev.len)) ∨
        arrival.outcome cfg conn = .drop (some c)) := by
  have hacked : (arrival.acked cfg conn).1.state = .established := (ackData_state cfg _ _).trans hstate
  have hrcvseq : (arrival.acked cfg conn).1.rcvseq = conn.rcvseq := ackData_rcvseq cfg _ _
  have hstopped : (arrival.acked cfg conn).1.stopped = conn.stopped := ackData_stopped cfg _ _
  have hfin' : ¬ (arrival.tcp.flags &&& tcpFin ≠ 0 ∧ (arrival.acked cfg conn).1.stopped = false) := by
    rwa [hstopped]
  have hurgent : urgentBytes arrival.tcp arrival.pay (arrival.acked cfg conn).1 =
      urgentBytes arrival.tcp arrival.pay conn := by
    rw [urgentBytes, urgentBytes, hstopped]
  obtain ⟨-, hlen, happdata⟩ := skipUrgent_eq hfin' arrival.pay
  have hmoved := skipUrgent_rcvseq hfin' arrival.pay
  rw [hurgent] at hlen happdata hmoved
  rw [hrcvseq] at hmoved
  have houtcome := outcome_of_processed h
  unfold inputState at houtcome
  rw [hacked] at houtcome
  unfold inputEstablished at houtcome
  rw [if_neg hfin'] at houtcome
  dsimp only at houtcome
  refine ⟨_, { (skipUrgent arrival.tcp arrival.pay (arrival.acked cfg conn).1).2 with sndlen := 0 },
    hmoved, happdata, hlen, ?_⟩
  generalize (if (skipUrgent arrival.tcp arrival.pay (arrival.acked cfg conn).1).2.len > 0 ∧
      (skipUrgent arrival.tcp arrival.pay (arrival.acked cfg conn).1).1.stopped = false then
      (arrival.acked cfg conn).2 ||| tcpNewdata else (arrival.acked cfg conn).2) = flags at houtcome
  rw [houtcome]
  split
  · exact .inl ⟨flags, rfl⟩
  · exact .inr rfl

theorem receiveLaw_of_asked
    (houtcome : arrival.outcome cfg conn = .callback c dev flags (.ackAppsend dev.len))
    (hrcvseq : c.rcvseq = conn.rcvseq) (happdata : dev.appdata = arrival.pay.appdata)
    (hdev : dev.len = arrival.pay.len) (hlen : arrival.pay.len ≠ 0) :
    ReceiveLaw cfg arrival conn ↔ ¬ (arrival.outcome cfg conn).AcksRefused cfg arrival.app := by
  obtain ⟨conn', hconn', -, hasked⟩ := finish_callback_rcvseq cfg arrival.app arrival.domain arrival.dev
    c dev flags (.ackAppsend dev.len)
  have hreceive : arrival.receive cfg conn = some conn' := by
    rw [Arrival.receive, houtcome, hconn']
  have hmoved : conn'.rcvseq = conn.rcvseq ↔
      (tcpCallback cfg arrival.app c dev flags).2.2 &&& tcpSndack = 0 := by
    rw [hasked dev.len rfl, hrcvseq]
    split_ifs with hsndack
    · rw [netIncr32_eq_self_iff, hdev]
      exact iff_of_false hlen hsndack
    · exact iff_of_true rfl (not_not.mp hsndack)
  unfold ReceiveLaw
  rw [or_iff_right hlen, houtcome, hreceive]
  constructor
  · rintro hlaw ⟨c2, d2, f2, n2, h2, ⟨hnot, hlost⟩, hasks⟩
    obtain ⟨rfl, rfl, rfl, rfl⟩ := Outcome.callback.inj h2
    rcases hlaw with ⟨c1, d1, f1, n1, h1, -, -, htaken⟩ | hsame
    · obtain ⟨rfl, rfl, rfl, rfl⟩ := Outcome.callback.inj h1
      exact htaken.elim hnot fun hstored => hlost ((stored_iff_buffers _ _ _ _ _).mp hstored)
    · exact (sndack_iff_asksRefused _ _ _ _ _ hlost).mpr hasks (hmoved.mp (hsame conn' rfl))
  · intro hnot
    by_cases htaken : Consumes arrival.app c dev flags ∨ Stored cfg arrival.app c dev flags
    · exact .inl ⟨c, dev, flags, _, rfl, happdata, hdev, htaken⟩
    rw [stored_iff_buffers] at htaken
    obtain ⟨hconsumes, hbuffers⟩ := not_or.mp htaken
    refine .inr fun c' hc' => ?_
    cases hc'
    rw [hmoved]
    by_contra hsndack
    exact hnot ⟨c, dev, flags, _, rfl, ⟨hconsumes, hbuffers⟩, (sndack_iff_asksRefused _ _ _ _ _ hbuffers).mp hsndack⟩

theorem not_receiveLaw_of_skipped
    {skipped : UInt16} (hrcvseq : c.rcvseq = netIncr32 conn.rcvseq skipped)
    (hdev : dev.len = arrival.pay.len - skipped) (hskipped : skipped ≠ 0) (hlen : arrival.pay.len ≠ 0)
    (houtcome : (∃ flags, arrival.outcome cfg conn = .callback c dev flags (.ackAppsend dev.len)) ∨
      arrival.outcome cfg conn = .drop (some c)) :
    ¬ ReceiveLaw cfg arrival conn := by
  have hmoved : c.rcvseq ≠ conn.rcvseq := by
    rw [hrcvseq]
    exact mt (netIncr32_eq_self_iff _ _).mp hskipped
  have hagain : netIncr32 c.rcvseq dev.len ≠ conn.rcvseq := by
    rw [← tcpGetsequence_injective.ne_iff, tcpGetsequence_netIncr32, hrcvseq, tcpGetsequence_netIncr32,
      hdev]
    exact seqno_add_sub_ne _ hlen
  rcases houtcome with ⟨flags, houtcome⟩ | houtcome
  · obtain ⟨conn', hconn', -, hasked⟩ := finish_callback_rcvseq cfg arrival.app arrival.domain
      arrival.dev c dev flags (.ackAppsend dev.len)
    have hreceive : arrival.receive cfg conn = some conn' := by
      rw [Arrival.receive, houtcome, hconn']
    rintro (hnone | ⟨c1, d1, f1, n1, h1, -, hd1, -⟩ | hsame)
    · exact hlen hnone
    · rw [houtcome] at h1
      obtain ⟨rfl, rfl, rfl, rfl⟩ := Outcome.callback.inj h1
      rw [hdev, UInt16.sub_eq_iff_eq_add] at hd1
      exact hskipped (UInt16.left_eq_add.mp hd1)
    · have hfinal := hsame conn' hreceive
      rw [hasked dev.len rfl] at hfinal
      split_ifs at hfinal
      · exact hagain hfinal
      · exact hmoved hfinal
  · rintro (hnone | ⟨c1, d1, f1, n1, h1, -⟩ | hsame)
    · exact hlen hnone
    · rw [houtcome] at h1
      cases h1
    · refine hmoved (hsame c ?_)
      rw [Arrival.receive, houtcome]
      rfl

theorem receiveLaw_data (h : Processed cfg arrival conn) (hstate : conn.state = .established)
    (hfin : ¬ (arrival.tcp.flags &&& tcpFin ≠ 0 ∧ conn.stopped = false)) (hlen : arrival.pay.len ≠ 0) :
    ReceiveLaw cfg arrival conn ↔
      urgentBytes arrival.tcp arrival.pay conn = 0 ∧
        ¬ (arrival.outcome cfg conn).AcksRefused cfg arrival.app := by
  obtain ⟨c, dev, hrcvseq, happdata, hdev, houtcome⟩ := outcome_data h hstate hfin
  by_cases hurgent : urgentBytes arrival.tcp arrival.pay conn = 0
  · rw [and_iff_right hurgent]
    rw [hurgent] at hrcvseq happdata hdev
    rw [(netIncr32_eq_self_iff _ _).mpr rfl] at hrcvseq
    rw [UInt16.sub_zero] at hdev
    rcases houtcome with ⟨flags, houtcome⟩ | houtcome
    · exact receiveLaw_of_asked houtcome hrcvseq happdata hdev hlen
    refine iff_of_true (.inr (.inr fun c' hc' => ?_)) ?_
    · rw [Arrival.receive, houtcome] at hc'
      cases hc'
      exact hrcvseq
    · rintro ⟨c', d', f', n', h', -⟩
      rw [houtcome] at h'
      cases h'
  · exact iff_of_false (not_receiveLaw_of_skipped hrcvseq hdev hurgent hlen houtcome)
      (fun hok => hurgent hok.1)

theorem receiveLaw_iff (hstate : conn.state = .synRcvd ∨ conn.state = .established) :
    ReceiveLaw cfg arrival conn ↔
      (Processed cfg arrival conn → arrival.pay.len ≠ 0 → ReceiveOk cfg arrival conn) := by
  by_cases hprocessed : Processed cfg arrival conn
  case neg =>
    exact iff_of_true (.inr (.inr (receive_of_not_processed hprocessed)))
      (fun h => absurd h hprocessed)
  by_cases hlen : arrival.pay.len = 0
  · exact iff_of_true (.inl hlen) (fun _ h => absurd hlen h)
  rw [imp_iff_right hprocessed, imp_iff_right hlen]
  rcases hstate with hstate | hstate
  · have hother : conn.state ≠ .established := by
      rw [hstate]
      decide
    rw [receiveLaw_synRcvd hprocessed hstate hlen]
    exact ⟨fun h => ⟨fun _ => h, fun h' => absurd h' hother, fun h' => absurd h' hother⟩,
      fun h => h.synRcvd hstate⟩
  · have hother : conn.state ≠ .synRcvd := by
      rw [hstate]
      decide
    by_cases hfin : arrival.tcp.flags &&& tcpFin ≠ 0 ∧ conn.stopped = false
    · rw [receiveLaw_fin hprocessed hstate hfin hlen]
      exact ⟨fun h => ⟨fun h' => absurd h' hother, fun _ _ => h, fun _ h' => absurd hfin h'⟩,
        fun h => h.fin hstate hfin⟩
    · rw [receiveLaw_data hprocessed hstate hfin hlen]
      exact ⟨fun h => ⟨fun h' => absurd h' hother, fun _ h' => absurd h' hfin, fun _ _ => h⟩,
        fun h => h.data hstate hfin⟩

/-- What `P` says of every segment of a run that finds the connection in `TCP_SYN_RCVD` or in
`TCP_ESTABLISHED`. The run ends when the connection is gone. -/
abbrev RunAll (cfg : Config) (P : Arrival → Conn → Prop) : Conn → List Arrival → Prop :=
  Runs.SomeAlong (fun conn arrival => arrival.receive cfg conn) fun conn arrival =>
    conn.state = .synRcvd ∨ conn.state = .established → P arrival conn

/-- A receive call that waits takes the payload, whatever the buffer pool says. -/
theorem consumes_recvCallback {app : App} {iobs : Iobs} {buflen : Nat}
    (hlist : app.list = [recvCallback cfg iobs buflen]) (hnew : flags &&& tcpNewdata ≠ 0) :
    Consumes app conn dev flags := by
  have hflags : flags ≠ 0 := by
    rintro rfl
    exact hnew (by decide)
  have htrigger : devifEventTrigger flags (tcpNewdata ||| tcpDisconnEvents) = true := by
    have hevents : flags &&& tcpNewdata =
        (flags &&& (tcpNewdata ||| tcpDisconnEvents) &&& ~~~devpollMask) &&& tcpNewdata := by
      rw [UInt16.and_assoc, UInt16.and_assoc]
      rfl
    rw [devifEventTrigger, if_pos]
    intro hnone
    rw [hevents, hnone] at hnew
    exact hnew (by decide)
  refine ⟨hnew, .inr ?_⟩
  simp [hlist, recvCallback, devifConnEvent, hflags, htrigger, tcpRecvhandler, hnew]

instance (app : App) (conn : Conn) (dev : Dev) (flags : UInt16) : Decidable (Consumes app conn dev flags) :=
  inferInstanceAs (Decidable (_ ∧ _))

instance (cfg : Config) (app : App) (conn : Conn) (dev : Dev) (flags : UInt16) :
    Decidable (Buffers cfg app conn dev flags) := by
  unfold Buffers Iobs.HasRoom
  infer_instance

instance (cfg : Config) (arrival : Arrival) (conn : Conn) : Decidable (Processed cfg arrival conn) :=
  inferInstanceAs (Decidable (_ ∧ _))

theorem Outcome.refuses_callback_iff {app : App} {next : Next} :
    (Outcome.callback conn dev flags next).Refuses cfg app ↔
      ¬ Consumes app conn dev flags ∧ ¬ Buffers cfg app conn dev flags := by
  constructor
  · rintro ⟨c, d, f, n, h, hnot⟩
    obtain ⟨rfl, rfl, rfl, rfl⟩ := Outcome.callback.inj h
    exact hnot
  · exact fun hnot => ⟨conn, dev, flags, next, rfl, hnot⟩

instance (cfg : Config) (app : App) (outcome : Outcome) : Decidable (outcome.Refuses cfg app) :=
  match outcome with
  | .callback _ _ _ _ => decidable_of_iff _ Outcome.refuses_callback_iff.symm
  | .drop _ => .isFalse (Outcome.Quiet.not_refuses fun _ _ _ _ h => Outcome.noConfusion h)
  | .reset _ => .isFalse (Outcome.Quiet.not_refuses fun _ _ _ _ h => Outcome.noConfusion h)
  | .send _ _ => .isFalse (Outcome.Quiet.not_refuses fun _ _ _ _ h => Outcome.noConfusion h)
  | .synack _ _ => .isFalse (Outcome.Quiet.not_refuses fun _ _ _ _ h => Outcome.noConfusion h)

def fullApp : App := { idleApp with iobs := ⟨fun _ => false, fun _ => false, false⟩ }

def ackWithData : Arrival where
  domain := .inet
  dev := received 0x0a000001
    [69, 0, 0, 42, 0, 0, 0, 0, 64, 6, 102, 204, 10, 0, 0, 2, 10, 0, 0, 1,
      4, 0, 0, 80, 0, 0, 0, 0, 0, 0, 0, 6, 80, 16, 3, 232, 43, 41, 0, 0, 104, 105]
  iplen := 20
  app := fullApp

def finWithData : Arrival where
  domain := .inet
  dev := received 0x0a000001
    [69, 0, 0, 42, 0, 0, 0, 0, 64, 6, 102, 204, 10, 0, 0, 2, 10, 0, 0, 1,
      4, 0, 0, 80, 0, 0, 0, 0, 0, 0, 0, 5, 80, 17, 3, 232, 43, 41, 0, 0, 104, 105]
  iplen := 20
  app := fullApp

def urgentData : Arrival where
  domain := .inet
  dev := received 0x0a000001
    [69, 0, 0, 42, 0, 0, 0, 0, 64, 6, 102, 204, 10, 0, 0, 2, 10, 0, 0, 1,
      4, 0, 0, 80, 0, 0, 0, 0, 0, 0, 0, 5, 80, 48, 3, 232, 43, 9, 0, 1, 104, 105]
  iplen := 20
  app := idleApp

-- a receive call that waits takes the bytes that came with the FIN
example : RunAll plainConfig (ReceiveLaw plainConfig) (inFlight .established 5 0)
    [{ finWithData with app := { fullApp with list := [recvCallback plainConfig fullApp.iobs 2] } }] := by
  refine ⟨fun hstate => (receiveLaw_iff hstate).mpr fun _ _ => ?_, fun _ _ => trivial⟩
  exact ⟨fun h => (by cases h), fun _ _ => .inl (by decide +kernel), fun _ h => absurd (by decide) h⟩

end Nuttx.Tcp
