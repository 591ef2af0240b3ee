import Nuttx.Net.Tcp.Proof.SendQueue

/-!
# The labels of what is sent

The two queues of a sender, one behind the other, hold the end of the stream of written bytes, and
`conn->sent` is the offset of the next byte to be sent.
-/

open List

namespace Nuttx.Tcp

open Net

structure Holds (isn : Nat) (stream : List UInt8) (start : Nat) (sender : Sender) : Prop where
  isn_eq : sender.conn.isn.toNat = isn
  start_le : start ≤ stream.length
  bytes_eq : bytes (sender.unackedQ ++ sender.writeQ) = stream.drop start
  unacked : Queued isn sender.conn.sent.toNat start sender.unackedQ
  write : Queued isn sender.conn.sent.toNat (start + (bytes sender.unackedQ).length) sender.writeQ
  sent_ge : start + (bytes sender.unackedQ).length ≤ sender.conn.sent.toNat
  sent_lt : ∀ wrb q, sender.writeQ = wrb :: q →
    sender.conn.sent.toNat < start + (bytes sender.unackedQ).length + wrb.iob.length
  sent_eq : sender.writeQ = [] → sender.conn.sent.toNat = start + (bytes sender.unackedQ).length

def Sender.Alive (sender : Sender) : Prop :=
  (∀ wrb ∈ sender.unackedQ, wrb.Lives) ∧ ∀ wrb ∈ sender.writeQ.head?, wrb.sent > 0 → wrb.Lives

def Sender.AckInside (ackno : UInt32) (sender : Sender) : Prop :=
  ∀ wrb ∈ sender.writeQ.head?, wrb.sent > 0 → ackno.toNat ≤ wrb.seqno.toNat + wrb.sent.toNat

instance (wrb : Wrb) : Decidable wrb.Lives := inferInstanceAs (Decidable (_ < _))

instance (sender : Sender) : Decidable sender.Alive := inferInstanceAs (Decidable (_ ∧ _))

instance (ackno : UInt32) (sender : Sender) : Decidable (sender.AckInside ackno) :=
  inferInstanceAs (Decidable (∀ wrb ∈ sender.writeQ.head?, _))

namespace Holds

variable {isn start : Nat} {stream : List UInt8} {sender : Sender}

section

variable (h : Holds isn stream start sender)
include h

theorem length_eq :
    start + (bytes sender.unackedQ).length + (bytes sender.writeQ).length = stream.length := by
  have hlength := congrArg List.length h.bytes_eq
  rw [bytes_append, length_append, length_drop] at hlength
  have := h.start_le
  omega

theorem of_conn {conn : Conn} (hisn : conn.isn = sender.conn.isn)
    (hsent : conn.sent = sender.conn.sent) : Holds isn stream start { sender with conn := conn } where
  isn_eq := by rw [hisn, h.isn_eq]
  start_le := h.start_le
  bytes_eq := h.bytes_eq
  unacked := by
    rw [hsent]
    exact h.unacked
  write := by
    rw [hsent]
    exact h.write
  sent_ge := by
    rw [hsent]
    exact h.sent_ge
  sent_lt := by
    rw [hsent]
    exact h.sent_lt
  sent_eq := by
    rw [hsent]
    exact h.sent_eq

theorem tcpSend {data : List UInt8} (hdata : data.length < 65536) :
    Holds isn (stream ++ data) start (psockTcpSend data sender) := by
  unfold psockTcpSend
  split_ifs with hnil
  · rw [hnil, append_nil]
    exact h
  have hpos : 0 < data.length := length_pos_iff.mpr hnil
  have hsent : sender.conn.sent.toNat ≤
      start + (bytes sender.unackedQ).length + (bytes sender.writeQ).length := by
    cases hq : sender.writeQ with
    | nil => exact (h.sent_eq hq).le.trans (Nat.le_add_right _ _)
    | cons wrb q =>
      have := h.sent_lt wrb q hq
      rw [bytes_cons, length_append]
      omega
  refine ⟨h.isn_eq, ?_, ?_, h.unacked, Queued.append_iff.mpr ⟨h.write, ?_⟩, h.sent_ge, ?_, ?_⟩
  · rw [length_append]
    exact h.start_le.trans (Nat.le_add_right _ _)
  · rw [drop_append_of_le_length h.start_le, ← h.bytes_eq]
    simp
  · refine ⟨.inr ⟨rfl, hsent⟩, ?_, hpos, hdata, trivial⟩
    rw [Nat.sub_eq_zero_of_le hsent, Nat.zero_min]
    rfl
  · intro wrb q hq
    cases hold : sender.writeQ with
    | nil =>
      rw [hold] at hq
      obtain ⟨rfl, -⟩ := List.cons.inj hq
      have := h.sent_eq hold
      dsimp only
      omega
    | cons wrb0 q0 =>
      rw [hold] at hq
      obtain ⟨rfl, -⟩ := List.cons.inj hq
      exact h.sent_lt _ _ hold
  · intro hempty
    exact absurd (append_eq_nil_iff.mp hempty).2 (cons_ne_nil _ _)

end

variable {ackno : UInt32}

theorem alive_acknowledge {r : List Wrb}
    (hnrtx : ∀ wrb ∈ r, ∃ wrb0 ∈ sender.unackedQ, wrb.nrtx = wrb0.nrtx) (halive : sender.Alive) :
    Sender.Alive ⟨sender.conn, ackHead ackno sender.writeQ, r⟩ := by
  constructor
  · intro wrb hmem
    obtain ⟨wrb0, hmem0, heq⟩ := hnrtx wrb hmem
    have hlives : wrb0.nrtx + 1 < tcpMaxrtx := halive.1 wrb0 hmem0
    change wrb.nrtx + 1 < tcpMaxrtx
    rwa [heq]
  intro wrb hwrb hsome
  have halive := halive.2
  cases hold : sender.writeQ with
  | nil =>
    rw [hold] at hwrb
    cases hwrb
  | cons wrb0 q0 =>
    rw [hold] at halive
    rw [hold, ackHead] at hwrb
    split_ifs at hwrb with hhead
    · obtain rfl := Option.some.inj hwrb
      exact halive wrb0 rfl hhead.1
    · obtain rfl := Option.some.inj hwrb
      exact halive _ rfl hsome

theorem of_ackedFrom (h : Holds isn stream start sender) {r : List Wrb} {start' : Nat}
    (hfrom : AckedFrom isn sender.conn.sent.toNat start ackno sender.unackedQ r start') :
    Holds isn stream start' ⟨sender.conn, sender.writeQ, r⟩ := by
  have hlength := h.length_eq
  have hge := hfrom.ge
  have hend := hfrom.end_eq
  refine ⟨h.isn_eq, by omega, ?_, hfrom.queued, ?_, ?_, ?_, ?_⟩
  · have hbytes := h.bytes_eq
    rw [bytes_append] at hbytes ⊢
    rw [hfrom.bytes_eq, ← drop_append_of_le_length (by omega), hbytes, drop_drop]
    congr 1
    omega
  · rw [hend]
    exact h.write
  · rw [hend]
    exact h.sent_ge
  · rw [hend]
    exact h.sent_lt
  · rw [hend]
    exact h.sent_eq

theorem of_trim {wrb : Wrb} {q : List Wrb} {conn : Conn} (h : Holds isn stream start ⟨conn, wrb :: q, []⟩)
    (hgt : isn + start < ackno.toNat) (hle : ackno.toNat ≤ isn + conn.sent.toNat) :
    Holds isn stream (ackno.toNat - isn) ⟨conn, wrb.acknowledge ackno :: q, []⟩ := by
  have hlength := h.length_eq
  have hlt : conn.sent.toNat < start + wrb.iob.length := h.sent_lt wrb q rfl
  have htrim := AckedFrom.trim h.write hle hgt (by omega)
  have hge := htrim.ge
  have hend := htrim.end_eq
  simp only [bytes_cons, bytes_nil, length_nil, length_append, Nat.add_zero] at hlength hge hend
  refine ⟨h.isn_eq, by omega, ?_, trivial, htrim.queued, ?_, ?_, ?_⟩
  · have hold : bytes (wrb :: q) = stream.drop start := h.bytes_eq
    have hnew : bytes (wrb.acknowledge ackno :: q) =
        (bytes (wrb :: q)).drop (ackno.toNat - isn - start) := htrim.bytes_eq
    rw [nil_append, hnew, hold, drop_drop]
    congr 1
    omega
  · change ackno.toNat - isn ≤ conn.sent.toNat
    omega
  · intro wrb0 q0 hq
    obtain ⟨rfl, rfl⟩ := List.cons.inj hq
    change conn.sent.toNat < ackno.toNat - isn + (wrb.acknowledge ackno).iob.length
    omega
  · exact fun hnil => absurd hnil (cons_ne_nil _ _)

theorem acknowledge (h : Holds isn stream start sender) (hwrap : isn + stream.length < 2 ^ 32)
    (watermark : Nat) (hinside : sender.AckInside ackno) :
    ∃ start', (start' = start ∨ isn + start' ≤ ackno.toNat) ∧
      Holds isn stream start' (sender.acknowledge watermark ackno).1 ∧
      ((sender.acknowledge watermark ackno).2 = true →
        Duplicates watermark ackno sender.unackedQ) ∧
      (sender.Alive → (sender.acknowledge watermark ackno).1.Alive) := by
  have hlength := h.length_eq
  obtain ⟨r, start', hr, hfrom, hdup⟩ :=
    ackUnacked_spec h.unacked h.sent_ge (by omega) watermark ackno []
  rw [nil_append] at hr
  have hsender : (sender.acknowledge watermark ackno).1 =
      ⟨sender.conn, ackHead ackno sender.writeQ, r⟩ := by
    rw [Sender.acknowledge, hr]
  rw [hsender]
  have halive : sender.Alive → Sender.Alive ⟨sender.conn, ackHead ackno sender.writeQ, r⟩ :=
    alive_acknowledge hfrom.nrtx
  have hkept := h.of_ackedFrom hfrom
  cases hq : sender.writeQ with
  | nil =>
    rw [hq] at halive hkept
    exact ⟨start', hfrom.acked, hkept, hdup, halive⟩
  | cons wrb q =>
    rw [hq] at halive hkept
    rw [ackHead] at halive ⊢
    by_cases hhead : wrb.sent > 0 ∧ ackno > wrb.seqno
    · rw [if_pos hhead] at halive ⊢
      have hinside := hinside wrb (by rw [hq]; rfl) hhead.1
      have hgt := UInt32.lt_iff_toNat_lt.mp hhead.2
      have hwrite := hkept.write
      have hcount := hwrite.2.1
      dsimp only at hcount
      have hseqno := hwrite.label (by dsimp only; omega)
      dsimp only at hseqno
      -- what is acknowledged of the head is behind all of `unacked_q`
      obtain rfl : r = [] := hfrom.nil (by have := hfrom.end_eq; omega)
      refine ⟨ackno.toNat - isn, .inr (by omega), hkept.of_trim (by omega) (by omega), hdup, halive⟩
    · rw [if_neg hhead] at halive ⊢
      exact ⟨start', hfrom.acked, hkept, hdup, halive⟩

theorem rexmit (h : Holds isn stream start sender) (hwrap : isn + stream.length < 2 ^ 32)
    (halive : sender.Alive) : Holds isn stream start sender.rexmit := by
  have hlength := h.length_eq
  obtain ⟨hisn, hsent, hqueued, hbytes⟩ :=
    rexmitHead_spec h.write h.sent_ge h.sent_lt h.sent_eq fun wrb q hq =>
      halive.2 wrb (by rw [hq]; rfl)
  obtain ⟨hisn', hsent', hqueued', hbytes'⟩ := requeue_spec h.unacked h.sent_ge (by omega) halive.1
    hsent hqueued
  have hsent' : sender.rexmit.conn.sent.toNat = start := hsent'
  refine ⟨?_, h.start_le, ?_, trivial, ?_, hsent'.ge, fun wrb q hq => ?_, fun _ => hsent'⟩
  · rw [← h.isn_eq, ← hisn, ← hisn']
    rfl
  · rw [← h.bytes_eq, bytes_append, bytes_append, ← hbytes, ← hbytes']
    rfl
  · rw [hsent']
    exact hqueued'
  have hpos : 0 < wrb.iob.length := by
    have hhead : Queued isn start start sender.rexmit.writeQ := hqueued'
    rw [hq] at hhead
    exact hhead.2.2.1
  rw [hsent']
  exact Nat.lt_add_of_pos_right hpos

section Head

variable {wrb : Wrb} {q : List Wrb}

variable (h : Holds isn stream start sender)
include h

theorem head_sent (hcase : sender.writeQ = wrb :: q) :
    wrb.sent.toNat = sender.conn.sent.toNat - (start + (bytes sender.unackedQ).length) := by
  have hwrite := h.write
  have hlt := h.sent_lt wrb q hcase
  rw [hcase] at hwrite
  rw [hwrite.2.1]
  omega

theorem head_pktlen (hcase : sender.writeQ = wrb :: q) : wrb.pktlen.toNat = wrb.iob.length := by
  have hwrite := h.write
  rw [hcase] at hwrite
  exact UInt16.toNat_ofNat_of_lt' hwrite.2.2.2.1

theorem head_length (hcase : sender.writeQ = wrb :: q) :
    start + (bytes sender.unackedQ).length + wrb.iob.length + (bytes q).length = stream.length := by
  have hlength := h.length_eq
  rw [hcase, bytes_cons, length_append] at hlength
  omega

theorem label_eq (hwrap : isn + stream.length < 2 ^ 32) (hcase : sender.writeQ = wrb :: q) :
    (sender.conn.label wrb).toNat = isn + (start + (bytes sender.unackedQ).length) := by
  have hlength := h.head_length hcase
  have hge := h.sent_ge
  have hwrite := h.write
  rw [hcase] at hwrite
  have hpos := hwrite.2.2.1
  unfold Conn.label
  split_ifs with hunsent
  · have hnone : sender.conn.sent.toNat = start + (bytes sender.unackedQ).length := by
      rcases hwrite.1 with hlabel | ⟨-, hle⟩
      · have hmax : wrb.seqno.toNat = 2 ^ 32 - 1 := by
          rw [hunsent]
          rfl
        omega
      · omega
    rw [UInt32.toNat_add, h.isn_eq, hnone]
    exact Nat.mod_eq_of_lt (by omega)
  · exact hwrite.1.resolve_right fun hno => hunsent hno.1

theorem sndlen_le (hcase : sender.writeQ = wrb :: q) :
    (sender.conn.sndlen wrb).toNat ≤ wrb.iob.length - wrb.sent.toNat := by
  have hlt := h.sent_lt wrb q hcase
  have hsent := h.head_sent hcase
  have hpktlen := h.head_pktlen hcase
  have hrest : (wrb.pktlen.toUInt32 - wrb.sent.toUInt32).toNat = wrb.iob.length - wrb.sent.toNat := by
    have hle : wrb.sent.toUInt32 ≤ wrb.pktlen.toUInt32 := by
      rw [UInt32.le_iff_toNat_le, UInt16.toNat_toUInt32, UInt16.toNat_toUInt32]
      omega
    rw [UInt32.toNat_sub_of_le _ _ hle, UInt16.toNat_toUInt32, UInt16.toNat_toUInt32, hpktlen]
  rw [← hrest]
  unfold Conn.sndlen
  dsimp only
  split_ifs with h1 h2 h2
  · exact (UInt32.le_of_lt h2).trans (UInt32.le_of_lt h1)
  · exact UInt32.le_of_lt h1
  · exact UInt32.le_of_lt h2
  · exact le_rfl

end Head

end Holds

theorem devifIobSend_bytes {iob : List UInt8} {len : UInt32} {offset : UInt16} (dev : Dev)
    (hlen : len.toNat < 65536) (hle : offset.toNat + len.toNat ≤ iob.length) :
    (devifIobSend dev iob len offset).bytes dev.appdata (devifIobSend dev iob len offset).sndlen.toNat =
      (iob.drop offset.toNat).take len.toNat := by
  have hsndlen : (devifIobSend dev iob len offset).sndlen.toNat = len.toNat := by
    change len.toUInt16.toNat = _
    rw [UInt32.toNat_toUInt16]
    exact Nat.mod_eq_of_lt hlen
  rw [hsndlen]
  refine ext_getElem ?_ fun i hi hi' => ?_
  · rw [Dev.length_bytes, length_take, length_drop]
    omega
  rw [Dev.length_bytes] at hi
  simp only [Dev.bytes, getElem_map, getElem_range, getElem_take, getElem_drop]
  change (if dev.appdata ≤ dev.appdata + i ∧ dev.appdata + i < dev.appdata + len.toNat then
    iob.getD (offset.toNat + (dev.appdata + i - dev.appdata)) _ else _) = _
  rw [if_pos (by omega), Nat.add_sub_cancel_left, getD_eq_getElem?_getD,
    List.getElem?_eq_getElem (by omega), Option.getD_some]

theorem Sender.send_of_cons {sender : Sender} {wrb : Wrb} {q : List Wrb}
    (hcase : sender.writeQ = wrb :: q) (domain : Domain) (dev : Dev) :
    (sender.send domain dev).2 =
        devifIobSend (sendIpselect domain dev) wrb.iob (sender.conn.sndlen wrb) wrb.sent ∧
      (sender.send domain dev).1 =
        let wrb' : Wrb :=
          { wrb with
              seqno := sender.conn.label wrb
              sent := wrb.sent + (sender.conn.sndlen wrb).toUInt16 }
        let conn := sender.conn.count (sender.conn.label wrb + wrb.sent.toUInt32)
          (sender.conn.sndlen wrb)
        if wrb'.sent ≥ wrb'.pktlen then ⟨conn, q, psockInsertSegment wrb' sender.unackedQ⟩
        else ⟨conn, wrb' :: q, sender.unackedQ⟩ := by
  unfold Sender.send
  rw [hcase]
  dsimp only
  split_ifs
  · exact ⟨rfl, rfl⟩
  · exact ⟨rfl, rfl⟩

namespace Holds

variable {isn start : Nat} {stream : List UInt8} {sender : Sender} {wrb : Wrb} {q : List Wrb}

variable (h : Holds isn stream start sender)
include h

theorem send_data (hwrap : isn + stream.length < 2 ^ 32)
    (hcase : sender.writeQ = wrb :: q) (domain : Domain) (dev : Dev) :
    (tcpGetsequence (sender.send domain dev).1.conn.sndseq).toNat = isn + sender.conn.sent.toNat ∧
      (sender.send domain dev).2.bytes (sender.send domain dev).2.appdata
          (sender.send domain dev).2.sndlen.toNat =
        (stream.drop sender.conn.sent.toNat).take (sender.conn.sndlen wrb).toNat := by
  have hlength := h.head_length hcase
  have hlt := h.sent_lt wrb q hcase
  have hge := h.sent_ge
  have hsent := h.head_sent hcase
  have hsndlen := h.sndlen_le hcase
  obtain ⟨hdev, hsender⟩ := Sender.send_of_cons hcase domain dev
  constructor
  · have hsndseq : (sender.send domain dev).1.conn.sndseq =
        tcpSetsequence (sender.conn.label wrb + wrb.sent.toUInt32) := by
      rw [hsender]
      dsimp only
      split_ifs <;> rfl
    rw [hsndseq, tcpGetsequence_tcpSetsequence, UInt32.toNat_add, h.label_eq hwrap hcase,
      UInt16.toNat_toUInt32, hsent, Nat.mod_eq_of_lt (by omega)]
    omega
  · have hshort := wrb.pktlen.toNat_lt
    rw [h.head_pktlen hcase] at hshort
    have hstream : stream.drop sender.conn.sent.toNat = wrb.iob.drop wrb.sent.toNat ++ bytes q := by
      have hbytes := h.bytes_eq
      rw [hcase, bytes_append, bytes_cons] at hbytes
      have hsplit : sender.conn.sent.toNat =
          start + ((bytes sender.unackedQ).length + wrb.sent.toNat) := by omega
      rw [hsplit, ← drop_drop, ← hbytes, drop_length_add_append,
        drop_append_of_le_length (by omega)]
    rw [hdev, hstream, take_append_of_le_length (by rw [length_drop]; omega)]
    exact devifIobSend_bytes (sendIpselect domain dev) (by omega) (by omega)

theorem advance_part (hcase : sender.writeQ = wrb :: q)
    {conn' : Conn} {wrb' : Wrb} {n : Nat} (hisn : conn'.isn = sender.conn.isn)
    (hconn : conn'.sent.toNat = sender.conn.sent.toNat + n) (hiob : wrb'.iob = wrb.iob)
    (hlabel : wrb'.seqno.toNat = isn + (start + (bytes sender.unackedQ).length))
    (hsent : wrb'.sent.toNat = wrb.sent.toNat + n) (hn : n < wrb.iob.length - wrb.sent.toNat) :
    Holds isn stream start ⟨conn', wrb' :: q, sender.unackedQ⟩ := by
  have hge := h.sent_ge
  have hold := h.head_sent hcase
  have hbytes := h.bytes_eq
  have hwrite := h.write
  rw [hcase] at hwrite hbytes
  obtain ⟨-, -, hpos, hshort, hrest⟩ := hwrite
  refine ⟨by rw [hisn, h.isn_eq], h.start_le, ?_, ?_, ⟨.inl hlabel, ?_, ?_, ?_, ?_⟩, ?_, ?_, ?_⟩
  · rw [← hbytes, bytes_append, bytes_append, bytes_cons, bytes_cons, hiob]
  · rw [hconn]
    exact h.unacked.done hge (by omega)
  · rw [hsent, hconn, hiob]
    dsimp only
    omega
  · rwa [hiob]
  · rwa [hiob]
  · rw [hconn, hiob]
    exact hrest.fresh (by omega) (by omega)
  · dsimp only
    omega
  · intro wrb0 q0 hq
    obtain ⟨rfl, -⟩ := List.cons.inj hq
    dsimp only
    rw [hconn, hiob]
    omega
  · exact fun hnil => absurd hnil (cons_ne_nil _ _)

theorem advance_whole (hcase : sender.writeQ = wrb :: q)
    {conn' : Conn} {wrb' : Wrb} (hisn : conn'.isn = sender.conn.isn)
    (hconn : conn'.sent.toNat = start + (bytes sender.unackedQ).length + wrb.iob.length)
    (hiob : wrb'.iob = wrb.iob)
    (hlabel : wrb'.seqno.toNat = isn + (start + (bytes sender.unackedQ).length))
    (hsent : wrb'.sent.toNat = wrb.iob.length) :
    Holds isn stream start ⟨conn', q, sender.unackedQ ++ [wrb']⟩ := by
  have hlt := h.sent_lt wrb q hcase
  have hge := h.sent_ge
  have hbytes := h.bytes_eq
  have hwrite := h.write
  rw [hcase] at hwrite hbytes
  obtain ⟨-, -, hpos, hshort, hrest⟩ := hwrite
  have hmoved : start + (bytes (sender.unackedQ ++ [wrb'])).length =
      start + (bytes sender.unackedQ).length + wrb.iob.length := by
    rw [bytes_append, bytes_cons, bytes_nil, append_nil, length_append, hiob, Nat.add_assoc]
  refine ⟨by rw [hisn, h.isn_eq], h.start_le, ?_, Queued.append_iff.mpr ⟨?_, .inl hlabel, ?_, ?_, ?_,
    trivial⟩, ?_, ?_, fun wrb0 q0 hq => ?_, fun _ => ?_⟩
  · rw [← hbytes]
    simp [hiob]
  · rw [hconn]
    exact h.unacked.done hge (by omega)
  · rw [hsent, hconn, hiob]
    omega
  · rwa [hiob]
  · rwa [hiob]
  · rw [hmoved, hconn]
    exact hrest.fresh (by omega) le_rfl
  · rw [hmoved, hconn]
  · rw [hmoved, hconn]
    rw [show q = wrb0 :: q0 from hq] at hrest
    exact Nat.lt_add_of_pos_right hrest.2.2.1
  · rw [hmoved, hconn]

theorem send (hwrap : isn + stream.length < 2 ^ 32)
    (hcase : sender.writeQ = wrb :: q) (domain : Domain) (dev : Dev) :
    Holds isn stream start (sender.send domain dev).1 := by
  have hlength := h.head_length hcase
  have hlt := h.sent_lt wrb q hcase
  have hge := h.sent_ge
  have hsent := h.head_sent hcase
  have hsndlen := h.sndlen_le hcase
  have hpktlen := h.head_pktlen hcase
  have hlabel := h.label_eq hwrap hcase
  have hshort := wrb.pktlen.toNat_lt
  have hcount : (sender.conn.sent + sender.conn.sndlen wrb).toNat =
      sender.conn.sent.toNat + (sender.conn.sndlen wrb).toNat := by
    rw [UInt32.toNat_add]
    exact Nat.mod_eq_of_lt (by omega)
  have hsent' : (wrb.sent + (sender.conn.sndlen wrb).toUInt16).toNat =
      wrb.sent.toNat + (sender.conn.sndlen wrb).toNat := by
    rw [UInt16.toNat_add, UInt32.toNat_toUInt16]
    omega
  obtain ⟨-, hsender⟩ := Sender.send_of_cons hcase domain dev
  rw [hsender]
  dsimp only
  split_ifs with hwhole
  · have hwhole : wrb.pktlen.toNat ≤ wrb.sent.toNat + (sender.conn.sndlen wrb).toNat :=
      hsent' ▸ UInt16.le_iff_toNat_le.mp hwhole
    rw [psockInsertSegment_last fun wrb0 hmem => ?_]
    · exact h.advance_whole hcase rfl (hcount.trans (by omega)) rfl hlabel (hsent'.trans (by omega))
    have := h.unacked.label_of_mem hge hmem
    rw [UInt32.lt_iff_toNat_lt]
    dsimp only
    omega
  · have hpart : ¬ wrb.pktlen.toNat ≤ wrb.sent.toNat + (sender.conn.sndlen wrb).toNat := fun hle =>
      hwhole (UInt16.le_iff_toNat_le.mpr (hsent' ▸ hle))
    exact h.advance_part hcase rfl hcount rfl hlabel hsent' (by omega)

end Holds

end Nuttx.Tcp
