import Nuttx.Net.Tcp.SendBuffered

/-!
# The queues hold a stretch of the stream

Offsets count the bytes that the application has written. The buffers of a queue follow each other
from some offset on, each labelled with the sequence number of its first byte; `sent` is the offset
up to which bytes have been sent.
-/

open List

namespace Nuttx.Tcp

def bytes (q : List Wrb) : List UInt8 := q.flatMap Wrb.iob

@[simp]
theorem bytes_nil : bytes [] = [] := rfl

@[simp]
theorem bytes_cons (wrb : Wrb) (q : List Wrb) : bytes (wrb :: q) = wrb.iob ++ bytes q := rfl

@[simp]
theorem bytes_append (p q : List Wrb) : bytes (p ++ q) = bytes p ++ bytes q := flatMap_append

def Queued (isn sent : Nat) : Nat → List Wrb → Prop
  | _, [] => True
  | off, wrb :: q =>
    (wrb.seqno.toNat = isn + off ∨ wrb.seqno = unsentSeqno ∧ sent ≤ off) ∧
      wrb.sent.toNat = min (sent - off) wrb.iob.length ∧
      0 < wrb.iob.length ∧ wrb.iob.length < 65536 ∧ Queued isn sent (off + wrb.iob.length) q

namespace Queued

variable {isn sent sent' off : Nat} {wrb : Wrb} {p q : List Wrb}

theorem append_iff :
    Queued isn sent off (p ++ q) ↔
      Queued isn sent off p ∧ Queued isn sent (off + (bytes p).length) q := by
  induction p generalizing off with
  | nil => simp [Queued]
  | cons wrb p ih =>
    simp [Queued, ih, Nat.add_assoc, and_assoc]

theorem fresh (h : Queued isn sent off q) (hsent : sent ≤ off) (hsent' : sent' ≤ off) :
    Queued isn sent' off q := by
  induction q generalizing off with
  | nil => trivial
  | cons wrb q ih =>
    obtain ⟨hlabel, hcount, hpos, hlt, hrest⟩ := h
    refine ⟨hlabel.imp_right fun h => ⟨h.1, hsent'⟩, ?_, hpos, hlt, ih hrest (by omega) (by omega)⟩
    rw [hcount]
    omega

theorem done (h : Queued isn sent off q) (hsent : off + (bytes q).length ≤ sent)
    (hsent' : off + (bytes q).length ≤ sent') : Queued isn sent' off q := by
  induction q generalizing off with
  | nil => trivial
  | cons wrb q ih =>
    rw [bytes_cons, length_append] at hsent hsent'
    obtain ⟨hlabel, hcount, hpos, hlt, hrest⟩ := h
    refine ⟨hlabel.imp_right fun h => ⟨h.1, by omega⟩, ?_, hpos, hlt, ih hrest (by omega) (by omega)⟩
    rw [hcount]
    omega

theorem label (h : Queued isn sent off (wrb :: q)) (hsent : off < sent) :
    wrb.seqno.toNat = isn + off := by
  rcases h.1 with h | ⟨-, h⟩
  · exact h
  · omega

theorem label_of_mem (h : Queued isn sent off q) (hsent : off + (bytes q).length ≤ sent)
    (hmem : wrb ∈ q) :
    isn + off ≤ wrb.seqno.toNat ∧
      wrb.seqno.toNat + wrb.iob.length ≤ isn + off + (bytes q).length ∧ 0 < wrb.iob.length := by
  induction q generalizing off with
  | nil => cases hmem
  | cons wrb0 q ih =>
    rw [bytes_cons, length_append] at hsent ⊢
    have hpos := h.2.2.1
    have hseqno := h.label (by omega)
    obtain ⟨-, -, -, -, hrest⟩ := h
    rcases mem_cons.mp hmem with rfl | hmem
    · omega
    · have := ih hrest (by omega) hmem
      omega

end Queued

variable {wrb : Wrb} {q : List Wrb} {ackno : UInt32} {isn sent off : Nat}

theorem psockInsertSegment_last (h : ∀ wrb0 ∈ q, wrb0.seqno < wrb.seqno) :
    psockInsertSegment wrb q = q ++ [wrb] := by
  induction q with
  | nil => rfl
  | cons wrb0 q ih =>
    rw [psockInsertSegment, if_pos (h wrb0 mem_cons_self),
      ih fun wrb1 hmem => h wrb1 (mem_cons_of_mem _ hmem), cons_append]

theorem psockInsertSegment_first (h : ∀ wrb0, q.head? = some wrb0 → ¬ wrb0.seqno < wrb.seqno) :
    psockInsertSegment wrb q = wrb :: q := by
  cases q with
  | nil => rfl
  | cons wrb0 q => rw [psockInsertSegment, if_neg (h wrb0 rfl)]

theorem Wrb.acknowledge_eq (hlt : wrb.seqno < ackno)
    (hle : ackno.toNat ≤ wrb.seqno.toNat + wrb.sent.toNat) :
    (wrb.acknowledge ackno).iob = wrb.iob.drop (ackno.toNat - wrb.seqno.toNat) ∧
      (wrb.acknowledge ackno).sent.toNat = wrb.sent.toNat - (ackno.toNat - wrb.seqno.toNat) := by
  have hnacked : (ackno - wrb.seqno).toNat = ackno.toNat - wrb.seqno.toNat :=
    UInt32.toNat_sub_of_le _ _ (UInt32.le_of_lt hlt)
  have hsent := wrb.sent.toNat_lt
  have hnot : ¬ ackno - wrb.seqno > wrb.sent.toUInt32 := by
    rw [gt_iff_lt, UInt32.lt_iff_toNat_lt, hnacked, UInt16.toNat_toUInt32]
    omega
  unfold acknowledge
  dsimp only
  rw [if_neg hnot]
  refine ⟨by rw [hnacked], ?_⟩
  have htrunc : (ackno - wrb.seqno).toUInt16.toNat = ackno.toNat - wrb.seqno.toNat := by
    rw [UInt32.toNat_toUInt16, hnacked]
    exact Nat.mod_eq_of_lt (by omega)
  rw [UInt16.toNat_sub_of_le _ _ (by rw [UInt16.le_iff_toNat_le, htrunc]; omega), htrunc]

theorem ackUnacked_of_lt {watermark : Nat} (kept : List Wrb) (h : ∀ wrb ∈ q, ackno < wrb.seqno) :
    ackUnacked watermark ackno kept q = (kept ++ q, false) := by
  induction q generalizing kept with
  | nil => rw [ackUnacked, append_nil]
  | cons wrb q ih =>
    have hlt := UInt32.lt_iff_toNat_lt.mp (h wrb mem_cons_self)
    have hnot : ¬ ackno > wrb.seqno := by
      rw [gt_iff_lt, UInt32.lt_iff_toNat_lt]
      omega
    have hne : ackno ≠ wrb.seqno := by
      rw [Ne, ← UInt32.toNat_inj]
      omega
    rw [ackUnacked, if_neg hnot, if_neg hne, ih _ fun wrb hmem => h wrb (mem_cons_of_mem _ hmem),
      append_assoc, singleton_append]

theorem Wrb.duplicate_eq (watermark count : Nat) (wrb : Wrb) :
    (wrb.duplicate watermark count).1 = { wrb with nack := (wrb.duplicate watermark count).1.nack } ∧
      ((wrb.duplicate watermark count).2 = true → (wrb.nack + 1).toNat = watermark) := by
  unfold duplicate
  dsimp only
  split_ifs with hmark
  · exact ⟨rfl, fun _ => hmark⟩
  · exact ⟨rfl, False.elim⟩
  · exact ⟨rfl, False.elim⟩

structure AckedFrom (isn sent off : Nat) (ackno : UInt32) (q r : List Wrb) (start : Nat) : Prop where
  ge : off ≤ start
  acked : start = off ∨ isn + start ≤ ackno.toNat
  queued : Queued isn sent start r
  bytes_eq : bytes r = (bytes q).drop (start - off)
  end_eq : start + (bytes r).length = off + (bytes q).length
  nil : isn + off + (bytes q).length ≤ ackno.toNat → r = []
  nrtx : ∀ wrb ∈ r, ∃ wrb0 ∈ q, wrb.nrtx = wrb0.nrtx

theorem AckedFrom.skip {start : Nat} {r : List Wrb}
    (h : AckedFrom isn sent (off + wrb.iob.length) ackno q r start)
    (hacked : isn + off + wrb.iob.length ≤ ackno.toNat) :
    AckedFrom isn sent off ackno (wrb :: q) r start := by
  have hge := h.ge
  have hend := h.end_eq
  refine ⟨by omega, ?_, h.queued, ?_, ?_, fun hall => h.nil ?_, fun wrb0 hmem => ?_⟩
  · have := h.acked
    omega
  · have hsplit : start - off = wrb.iob.length + (start - (off + wrb.iob.length)) := by omega
    rw [h.bytes_eq, bytes_cons, hsplit, drop_length_add_append]
  · rw [bytes_cons, length_append]
    omega
  · rw [bytes_cons, length_append] at hall
    omega
  · obtain ⟨wrb1, hmem1, h1⟩ := h.nrtx wrb0 hmem
    exact ⟨wrb1, mem_cons_of_mem _ hmem1, h1⟩

theorem AckedFrom.trim (h : Queued isn sent off (wrb :: q)) (hsent : ackno.toNat ≤ isn + sent)
    (hgt : isn + off < ackno.toNat) (hlt : ackno.toNat < isn + off + wrb.iob.length) :
    AckedFrom isn sent off ackno (wrb :: q) (wrb.acknowledge ackno :: q) (ackno.toNat - isn) := by
  have hseqno := h.label (by omega)
  obtain ⟨-, hcount, -, hshort, hrest⟩ := h
  obtain ⟨hiob, hsent'⟩ := Wrb.acknowledge_eq (UInt32.lt_iff_toNat_lt.mpr (hseqno ▸ hgt))
    (by rw [hcount]; omega)
  have hlength : (wrb.acknowledge ackno).iob.length = isn + off + wrb.iob.length - ackno.toNat := by
    rw [hiob, length_drop]
    omega
  refine ⟨by omega, .inr (by omega), ⟨.inl ?_, ?_, by omega, by omega, ?_⟩, ?_, ?_, fun hall => ?_,
    fun wrb0 hmem => ?_⟩
  · change ackno.toNat = _
    omega
  · rw [hsent', hcount, hlength]
    omega
  · have hoff : ackno.toNat - isn + (wrb.acknowledge ackno).iob.length = off + wrb.iob.length := by
      omega
    rw [hoff]
    exact hrest
  · have hdrop : ackno.toNat - wrb.seqno.toNat = ackno.toNat - isn - off := by omega
    rw [bytes_cons, bytes_cons, hiob, hdrop, drop_append_of_le_length (by omega)]
  · rw [bytes_cons, bytes_cons, length_append, length_append, hlength]
    omega
  · rw [bytes_cons, length_append] at hall
    omega
  · rcases mem_cons.mp hmem with rfl | hmem
    · exact ⟨wrb, mem_cons_self, rfl⟩
    · exact ⟨wrb0, mem_cons_of_mem _ hmem, rfl⟩

theorem AckedFrom.same
    (h : Queued isn sent off (wrb :: q)) (hle : ackno.toNat ≤ isn + off) (nack : UInt8) :
    AckedFrom isn sent off ackno (wrb :: q) ({ wrb with nack := nack } :: q) off := by
  have hpos := h.2.2.1
  refine ⟨le_rfl, .inl rfl, h, ?_, rfl, fun hall => ?_, fun wrb0 hmem => ?_⟩
  · rw [Nat.sub_self, drop_zero, bytes_cons, bytes_cons]
  · rw [bytes_cons, length_append] at hall
    omega
  · rcases mem_cons.mp hmem with rfl | hmem
    · exact ⟨wrb, mem_cons_self, rfl⟩
    · exact ⟨wrb0, mem_cons_of_mem _ hmem, rfl⟩

def Duplicates (watermark : Nat) (ackno : UInt32) (q : List Wrb) : Prop :=
  ∃ wrb ∈ q, wrb.seqno = ackno ∧ (wrb.nack + 1).toNat = watermark

theorem ackUnacked_spec (h : Queued isn sent off q)
    (hsent : off + (bytes q).length ≤ sent) (hwrap : isn + off + (bytes q).length < 2 ^ 32)
    (watermark : Nat) (ackno : UInt32) (kept : List Wrb) :
    ∃ r start, (ackUnacked watermark ackno kept q).1 = kept ++ r ∧
      AckedFrom isn sent off ackno q r start ∧
      ((ackUnacked watermark ackno kept q).2 = true → Duplicates watermark ackno q) := by
  induction q generalizing off kept with
  | nil =>
    refine ⟨[], off, ?_, ⟨le_rfl, .inl rfl, trivial, ?_, rfl, fun _ => rfl, ?_⟩, ?_⟩
    · rw [ackUnacked, append_nil]
    · rw [bytes_nil, drop_nil]
    · exact fun wrb hmem => absurd hmem not_mem_nil
    · exact fun hflag => absurd hflag Bool.false_ne_true
  | cons wrb q ih =>
    rw [bytes_cons, length_append] at hsent hwrap
    have hpos := h.2.2.1
    have hseqno := h.label (by omega)
    obtain ⟨-, -, -, hlt, hrest⟩ := id h
    have hlast : (wrb.seqno + wrb.pktlen.toUInt32).toNat = isn + off + wrb.iob.length := by
      rw [UInt32.toNat_add, UInt16.toNat_toUInt32, Wrb.pktlen, UInt16.toNat_ofNat_of_lt' hlt, hseqno]
      exact Nat.mod_eq_of_lt (by omega)
    -- the buffers behind this one are labelled with higher numbers
    have hbehind : ackno.toNat < isn + off + wrb.iob.length → ∀ wrb0 ∈ q, ackno < wrb0.seqno := by
      intro hbefore wrb0 hmem
      have := hrest.label_of_mem (by omega) hmem
      rw [UInt32.lt_iff_toNat_lt]
      omega
    by_cases hgt : ackno > wrb.seqno
    · have hgt' := UInt32.lt_iff_toNat_lt.mp hgt
      by_cases hall : ackno ≥ wrb.seqno + wrb.pktlen.toUInt32
      · have hall' := UInt32.le_iff_toNat_le.mp hall
        obtain ⟨r, start, hr, hfrom, hdup⟩ := ih hrest (by omega) (by omega) kept
        rw [ackUnacked, if_pos hgt, if_pos hall]
        refine ⟨r, start, hr, hfrom.skip (by omega), fun hflag => ?_⟩
        obtain ⟨wrb0, hmem, h0⟩ := hdup hflag
        exact ⟨wrb0, mem_cons_of_mem _ hmem, h0⟩
      · have hpart : ackno.toNat < isn + off + wrb.iob.length := by
          rw [ge_iff_le, UInt32.le_iff_toNat_le, hlast] at hall
          omega
        rw [ackUnacked, if_pos hgt, if_neg hall, ackUnacked_of_lt _ (hbehind hpart)]
        refine ⟨_, _, append_assoc _ _ _, AckedFrom.trim h (by omega) (by omega) hpart, ?_⟩
        exact fun hflag => absurd hflag Bool.false_ne_true
    · have hle : ackno.toNat ≤ isn + off := by
        rw [gt_iff_lt, UInt32.lt_iff_toNat_lt] at hgt
        omega
      by_cases heq : ackno = wrb.seqno
      · obtain ⟨hnack, hmark⟩ := wrb.duplicate_eq watermark (kept.length + q.length + 1)
        rw [ackUnacked, if_neg hgt, if_pos heq]
        dsimp only
        rw [ackUnacked_of_lt _ (hbehind (by omega)), hnack]
        refine ⟨_, _, append_assoc _ _ _, AckedFrom.same h hle _, fun hflag => ?_⟩
        rw [Bool.or_false] at hflag
        exact ⟨wrb, mem_cons_self, heq.symm, hmark hflag⟩
      · rw [ackUnacked, if_neg hgt, if_neg heq, ackUnacked_of_lt _ (hbehind (by omega))]
        refine ⟨_, _, append_assoc _ _ _, AckedFrom.same h hle wrb.nack, ?_⟩
        exact fun hflag => absurd hflag Bool.false_ne_true

theorem Conn.unsend_sent {conn : Conn} {sent : UInt16} (h : sent.toNat ≤ conn.sent.toNat) :
    (conn.unsend sent).sent.toNat = conn.sent.toNat - sent.toNat := by
  unfold unsend
  dsimp only
  split_ifs with hgt
  · rw [UInt32.toNat_sub_of_le _ _ (UInt32.le_of_lt hgt), UInt16.toNat_toUInt32]
  · rw [gt_iff_lt, UInt32.lt_iff_toNat_lt, UInt16.toNat_toUInt32] at hgt
    change 0 = _
    omega

def Wrb.Lives (wrb : Wrb) : Prop := wrb.again.nrtx < tcpMaxrtx

theorem Queued.again
    (hlabel : wrb.seqno.toNat = isn + off) (hpos : 0 < wrb.iob.length) (hlt : wrb.iob.length < 65536)
    (h : Queued isn sent (off + wrb.iob.length) q) (hsent : sent ≤ off + wrb.iob.length) :
    Queued isn off off (wrb.again :: q) := by
  refine ⟨.inl hlabel, ?_, hpos, hlt, h.fresh hsent (Nat.le_add_right _ _)⟩
  change 0 = _
  omega

theorem rexmitHead_spec {conn : Conn}
    (h : Queued isn conn.sent.toNat off q) (hge : off ≤ conn.sent.toNat)
    (hlt : ∀ wrb q', q = wrb :: q' → conn.sent.toNat < off + wrb.iob.length)
    (hnil : q = [] → conn.sent.toNat = off)
    (hlives : ∀ wrb q', q = wrb :: q' → wrb.sent > 0 → wrb.Lives) :
    (rexmitHead conn q).1.isn = conn.isn ∧ (rexmitHead conn q).1.sent.toNat = off ∧
      Queued isn off off (rexmitHead conn q).2 ∧ bytes (rexmitHead conn q).2 = bytes q := by
  cases q with
  | nil => exact ⟨rfl, hnil rfl, trivial, rfl⟩
  | cons wrb q =>
    have hlabelled := h.label
    obtain ⟨hlabel, hcount, hpos, hshort, hrest⟩ := h
    have hlt := hlt wrb q rfl
    by_cases hsome : wrb.sent > 0
    · have hsome' : 0 < wrb.sent.toNat := UInt16.lt_iff_toNat_lt.mp hsome
      have hseqno := hlabelled (by omega)
      rw [rexmitHead, if_pos hsome]
      rw [if_neg (UInt8.not_le.mpr (hlives wrb q rfl hsome))]
      refine ⟨rfl, ?_, hrest.again hseqno hpos hshort (by omega), rfl⟩
      rw [Conn.unsend_sent (by omega)]
      omega
    · have hnone : ¬ 0 < wrb.sent.toNat := fun h => hsome (UInt16.lt_iff_toNat_lt.mpr h)
      have hoff : conn.sent.toNat = off := by omega
      rw [rexmitHead, if_neg hsome]
      refine ⟨rfl, hoff, ?_, rfl⟩
      rw [hoff] at hlabel hcount hrest
      exact ⟨hlabel, hcount, hpos, hshort, hrest⟩

theorem requeue_spec {state : Conn × List Wrb}
    (h : Queued isn sent off q) (hsent : off + (bytes q).length ≤ sent)
    (hwrap : isn + off + (bytes q).length < 2 ^ 32) (hlives : ∀ wrb ∈ q, wrb.Lives)
    (hstate : state.1.sent.toNat = off + (bytes q).length)
    (hqueued : Queued isn (off + (bytes q).length) (off + (bytes q).length) state.2) :
    (q.foldr requeue state).1.isn = state.1.isn ∧ (q.foldr requeue state).1.sent.toNat = off ∧
      Queued isn off off (q.foldr requeue state).2 ∧
      bytes (q.foldr requeue state).2 = bytes q ++ bytes state.2 := by
  induction q generalizing off with
  | nil => exact ⟨rfl, hstate, hqueued, rfl⟩
  | cons wrb q ih =>
    rw [bytes_cons, length_append] at hsent hwrap hstate hqueued
    have hpos := h.2.2.1
    have hseqno := h.label (by omega)
    obtain ⟨-, hcount, -, hshort, hrest⟩ := h
    rw [← Nat.add_assoc] at hstate hqueued
    obtain ⟨hisn, hoff, hmoved, hbytes⟩ := ih hrest (by omega) (by omega)
      (fun wrb0 hmem => hlives wrb0 (mem_cons_of_mem _ hmem)) hstate hqueued
    rw [foldr_cons, requeue, if_neg (UInt8.not_le.mpr (hlives wrb mem_cons_self))]
    have hfirst : psockInsertSegment wrb.again (q.foldr requeue state).2 =
        wrb.again :: (q.foldr requeue state).2 := by
      refine psockInsertSegment_first fun wrb0 hhead => ?_
      cases hcase : (q.foldr requeue state).2 with
      | nil =>
        rw [hcase] at hhead
        cases hhead
      | cons wrb1 q1 =>
        rw [hcase] at hhead hmoved
        cases hhead
        rw [UInt32.lt_iff_toNat_lt]
        change ¬ wrb0.seqno.toNat < wrb.seqno.toNat
        rcases hmoved.1 with h1 | ⟨h1, -⟩
        · omega
        · rw [h1]
          have hmax : unsentSeqno.toNat = 2 ^ 32 - 1 := rfl
          omega
    refine ⟨hisn, ?_, ?_, ?_⟩
    · have hwhole : wrb.sent.toNat = wrb.iob.length := by
        rw [hcount]
        omega
      rw [Conn.unsend_sent (by omega), hoff]
      omega
    · rw [hfirst]
      exact hmoved.again hseqno hpos hshort le_rfl
    · rw [hfirst, bytes_cons, bytes_cons, hbytes, append_assoc]
      rfl

end Nuttx.Tcp
