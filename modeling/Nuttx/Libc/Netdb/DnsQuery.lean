import Mathlib.Data.BitVec

/-!
# The parser of DNS responses

`dns_parse_name` and `dns_recv_response` of `lib_dnsquery.c` on a datagram. A read of a byte that is
not in the datagram ends the run with `none`.
-/

open List Option

namespace Nuttx.Dns

def eilseq : Int := 138
def eproto : Int := 71
def ebadmsg : Int := 77
def erange : Int := 34
def eaddrnotavail : Int := 125

/-- `CONFIG_NET_IPv4` and `CONFIG_NET_IPv6` -/
inductive Family
  | ipv4
  | ipv6
  deriving DecidableEq

/-- `DNS_RECTYPE_A` and `DNS_RECTYPE_AAAA` -/
def Family.rectype : Family → Nat
  | .ipv4 => 1
  | .ipv6 => 28

def Family.size : Family → Nat
  | .ipv4 => 4
  | .ipv6 => 16

/-- An entry of the result array. -/
structure DnsAddr where
  family : Family
  bytes : List UInt8
  deriving DecidableEq

/-- `struct dns_query_info_s`, the numbers in host order and the name without its NUL. -/
structure QueryInfo where
  id : Nat
  rectype : Nat
  qname : List UInt8

structure Header where
  id : Nat
  flags2 : UInt8
  numquestions : Nat
  numanswers : Nat

structure Answer where
  type : Nat
  cls : Nat
  len : Nat
  deriving DecidableEq

def dnsClassIn : Nat := 1

variable (d : List UInt8) {naddr : Nat} {q : Nat}

def read16 (i : Nat) : Option Nat := do
  let hi ← d[i]?
  let lo ← d[i + 1]?
  some (hi.toNat * 256 + lo.toNat)

def readBytes (i n : Nat) : Option (List UInt8) :=
  if i + n ≤ d.length then some ((d.drop i).take n) else none

def readHeader : Option Header := do
  let id ← read16 d 0
  let flags2 ← d[3]?
  let numquestions ← read16 d 4
  let numanswers ← read16 d 6
  some ⟨id, flags2, numquestions, numanswers⟩

/-- The members of `struct dns_answer_s` that are looked at. Every branch reads `len`, the last one. -/
def readAnswer (i : Nat) : Option Answer := do
  let type ← read16 d i
  let cls ← read16 d (i + 2)
  let len ← read16 d (i + 8)
  some ⟨type, cls, len⟩

def dnsParseName (query : Nat) : Nat :=
  if h : query < d.length then
    if d[query] &&& 0xc0 ≠ 0 then min (query + 2) d.length
    else if d[query] = 0 then min (query + 1) d.length
    else dnsParseName (query + 1 + d[query].toNat)
  else d.length
termination_by d.length - query

variable (cfg : Family → Bool)

/-- The test for an address record of the family. -/
def Takes (nameptr : Nat) (ans : Answer) (f : Family) : Prop :=
  cfg f ∧ ans = ⟨f.rectype, dnsClassIn, f.size⟩ ∧ nameptr + 10 + f.size ≤ d.length

instance (nameptr : Nat) (ans : Answer) (f : Family) : Decidable (Takes d cfg nameptr ans f) :=
  inferInstanceAs (Decidable (_ ∧ _))

def family? (nameptr : Nat) (ans : Answer) : Option Family :=
  if Takes d cfg nameptr ans .ipv4 then some .ipv4
  else if Takes d cfg nameptr ans .ipv6 then some .ipv6
  else none

/-- The loop over the answers of `dns_recv_response`. -/
def answerLoop (naddr : Nat) : Nat → Nat → List DnsAddr → Option (Int × List DnsAddr)
  | 0, _, addr => some (0, addr)
  | nanswers + 1, nameptr, addr =>
    let nameptr := dnsParseName d nameptr
    if nameptr = d.length then some (-eilseq, addr)
    else
      (readAnswer d nameptr).bind fun ans =>
        match family? d cfg nameptr ans with
        | some f =>
          (readBytes d (nameptr + 10) f.size).bind fun bytes =>
            let addr := addr ++ [⟨f, bytes⟩]
            if naddr ≤ addr.length then some (-erange, addr)
            else answerLoop naddr nanswers (nameptr + 10 + f.size) addr
        | none => answerLoop naddr nanswers (nameptr + 10 + ans.len) addr

def returned (ret : Int) (addr : List DnsAddr) : Int :=
  if addr ≠ [] then addr.length else if ret = 0 then -eaddrnotavail else ret

/-- `dns_recv_response` from the question on. -/
def recvQuestion (naddr : Nat) (qinfo : QueryInfo) (hdr : Header) (nameptr : Nat) :
    Option (Int × List DnsAddr) :=
  (read16 d nameptr).bind fun type =>
    if type ≠ qinfo.rectype then some (-ebadmsg, [])
    else
      (read16 d (nameptr + 2)).bind fun cls =>
        if cls ≠ dnsClassIn then some (-ebadmsg, [])
        else
          (answerLoop d cfg naddr hdr.numanswers (nameptr + 4) []).map fun (ret, addr) =>
            (returned ret addr, addr)

def dnsRecvResponse (naddr : Int) (qinfo : QueryInfo) : Option (Int × List DnsAddr) :=
  if naddr ≤ 0 then some (-erange, [])
  else if d.length < 12 then some (-eilseq, [])
  else
    (readHeader d).bind fun hdr =>
      if hdr.flags2 &&& 0x0f ≠ 0 then some (-eproto, [])
      else if hdr.id ≠ qinfo.id then some (-ebadmsg, [])
      else if hdr.numquestions ≠ 1 then some (-ebadmsg, [])
      else
        let nameptr := dnsParseName d 12
        if nameptr = d.length then some (-eilseq, [])
        else if nameptr - 12 < qinfo.qname.length then some (-ebadmsg, [])
        else
          (readBytes d 12 (qinfo.qname.length + 1)).bind fun name =>
            if name ≠ qinfo.qname ++ [0] then some (-ebadmsg, [])
            else recvQuestion d cfg naddr.toNat qinfo hdr nameptr

/-- The name at `p` ends before `q`. -/
inductive NameEnds : Nat → Nat → Prop
  | pointer {p : Nat} {n : UInt8} : d[p]? = some n → n &&& 0xc0 ≠ 0 → NameEnds p (p + 2)
  | root {p : Nat} : d[p]? = some 0 → NameEnds p (p + 1)
  | label {p q : Nat} {n : UInt8} : d[p]? = some n → n &&& 0xc0 = 0 → n ≠ 0 →
      NameEnds (p + 1 + n.toNat) q → NameEnds p q

/-- Of the `n` answers from `p` on, with `m` addresses found before, those that are looked at have their
first ten bytes in the datagram. -/
def Framed (naddr : Nat) : Nat → Nat → Nat → Prop
  | 0, _, _ => True
  | n + 1, p, m => ∀ q, NameEnds d p q → q < d.length → q + 10 ≤ d.length ∧
      ∀ ans, readAnswer d q = some ans →
        (family? d cfg q ans = none → Framed naddr n (q + 10 + ans.len) m) ∧
        ∀ f, family? d cfg q ans = some f → m + 1 < naddr → Framed naddr n (q + 10 + f.size) (m + 1)

/-- The datagram answers the query, as far as its header and the name in its question say. -/
structure Answers (qinfo : QueryInfo) (hdr : Header) (q : Nat) : Prop where
  header : readHeader d = some hdr
  length : 12 ≤ d.length
  flags : hdr.flags2 &&& 0x0f = 0
  id : hdr.id = qinfo.id
  numquestions : hdr.numquestions = 1
  name : NameEnds d 12 q
  inside : q < d.length
  long : qinfo.qname.length ≤ q - 12
  asked : (d.drop 12).take (qinfo.qname.length + 1) = qinfo.qname ++ [0]

/-- **The datagram is long enough** for the question, if it answers the query, and for the answers. -/
def Readable (naddr : Int) (qinfo : QueryInfo) : Prop :=
  ∀ hdr q, 0 < naddr → Answers d qinfo hdr q → q + 2 ≤ d.length ∧
    (read16 d q = some qinfo.rectype → q + 4 ≤ d.length ∧
      (read16 d (q + 2) = some dnsClassIn → Framed d cfg naddr.toNat hdr.numanswers (q + 4) 0))

/-- The address is that of an address record inside the datagram. -/
def DnsAddr.Inside (a : DnsAddr) : Prop :=
  ∃ q, readAnswer d q = some ⟨a.family.rectype, dnsClassIn, a.family.size⟩ ∧
    q + 10 + a.family.size ≤ d.length ∧ a.bytes = (d.drop (q + 10)).take a.family.size

/-- **Memory safety**: no byte outside the datagram was read, at most `naddr` entries were written, and
each of them comes from a record inside the datagram. -/
def Safe (naddr : Nat) (result : Option (Int × List DnsAddr)) : Prop :=
  ∃ ret addr, result = some (ret, addr) ∧ addr.length ≤ naddr ∧ ∀ a ∈ addr, a.Inside d

variable {d cfg}

theorem read16_eq {i : Nat} (h : i + 2 ≤ d.length) : ∃ v, read16 d i = some v := by
  refine ⟨d[i].toNat * 256 + d[i + 1].toNat, ?_⟩
  rw [read16, List.getElem?_eq_getElem, List.getElem?_eq_getElem]
  rfl

theorem read16_none {i : Nat} (h : ¬ i + 2 ≤ d.length) : read16 d i = none := by
  rw [read16, List.getElem?_eq_none (show d.length ≤ i + 1 by omega)]
  cases d[i]? <;> rfl

theorem readAnswer_eq (h : q + 10 ≤ d.length) : ∃ ans, readAnswer d q = some ans := by
  obtain ⟨type, htype⟩ := read16_eq (show q + 2 ≤ d.length by omega)
  obtain ⟨cls, hcls⟩ := read16_eq (show q + 2 + 2 ≤ d.length by omega)
  obtain ⟨len, hlen⟩ := read16_eq (show q + 8 + 2 ≤ d.length by omega)
  refine ⟨⟨type, cls, len⟩, ?_⟩
  rw [readAnswer, htype, hcls, hlen]
  rfl

theorem readAnswer_none (h : ¬ q + 10 ≤ d.length) : readAnswer d q = none := by
  rw [readAnswer, read16_none (show ¬ q + 8 + 2 ≤ d.length by omega)]
  cases read16 d q with
  | none => rfl
  | some type => cases read16 d (q + 2) <;> rfl

theorem readHeader_eq (h : 12 ≤ d.length) : ∃ hdr, readHeader d = some hdr := by
  obtain ⟨id, hid⟩ := read16_eq (show 0 + 2 ≤ d.length by omega)
  obtain ⟨nquestions, hquestions⟩ := read16_eq (show 4 + 2 ≤ d.length by omega)
  obtain ⟨nanswers, hanswers⟩ := read16_eq (show 6 + 2 ≤ d.length by omega)
  refine ⟨⟨id, d[3], nquestions, nanswers⟩, ?_⟩
  rw [readHeader, hid, hquestions, hanswers, List.getElem?_eq_getElem]
  rfl

theorem dnsParseName_mem (p : Nat) : min p d.length ≤ dnsParseName d p ∧ dnsParseName d p ≤ d.length := by
  fun_induction dnsParseName d p <;> omega

/-- **The end of a name** in the datagram is found. -/
theorem nameEnds_iff {p q : Nat} (hq : q < d.length) : NameEnds d p q ↔ dnsParseName d p = q := by
  constructor
  · intro h
    induction h with
    | pointer hn hpointer =>
      obtain ⟨hp, rfl⟩ := List.getElem?_eq_some_iff.mp hn
      rw [dnsParseName, dif_pos hp, if_pos hpointer, Nat.min_eq_left hq.le]
    | root hn =>
      obtain ⟨hp, hzero⟩ := List.getElem?_eq_some_iff.mp hn
      rw [dnsParseName, dif_pos hp, hzero, if_neg (by decide), if_pos rfl, Nat.min_eq_left hq.le]
    | label hn hlabel hne _ ih =>
      obtain ⟨hp, rfl⟩ := List.getElem?_eq_some_iff.mp hn
      rw [dnsParseName, dif_pos hp, if_neg (not_not_intro hlabel), if_neg hne]
      exact ih hq
  · intro h
    fun_induction dnsParseName d p with
    | case1 p hp hpointer =>
      obtain rfl : p + 2 = q := by omega
      exact .pointer (List.getElem?_eq_getElem hp) hpointer
    | case2 p hp _ hzero =>
      obtain rfl : p + 1 = q := by omega
      exact .root (by rw [List.getElem?_eq_getElem hp, hzero])
    | case3 p hp hlabel hne ih =>
      exact .label (List.getElem?_eq_getElem hp) (not_not.mp hlabel) hne (ih h)
    | case4 => omega

theorem family?_some {ans : Answer} {f : Family} (h : family? d cfg q ans = some f) :
    Takes d cfg q ans f := by
  unfold family? at h
  split_ifs at h with h4 h6
  · cases h
    exact h4
  · cases h
    exact h6

theorem safe_refused (ret : Int) : Safe d naddr (some (ret, [])) :=
  ⟨ret, [], rfl, Nat.zero_le _, forall_mem_nil _⟩

theorem not_safe_none : ¬ Safe d naddr none := by
  rintro ⟨_, _, h, _⟩
  cases h

theorem safe_map {result : Option (Int × List DnsAddr)} :
    Safe d naddr (result.map fun (ret, addr) => (returned ret addr, addr)) ↔ Safe d naddr result := by
  constructor
  · rintro ⟨_, _, h, hle, hall⟩
    obtain ⟨⟨ret, addr⟩, rfl, heq⟩ := map_eq_some_iff.mp h
    cases heq
    exact ⟨ret, _, rfl, hle, hall⟩
  · rintro ⟨_, _, rfl, hle, hall⟩
    exact ⟨_, _, rfl, hle, hall⟩

/-- By induction on the answers that are left: the loop looks at the next one where its name ends. -/
theorem answerLoop_safe_iff {naddr n p : Nat} {addr : List DnsAddr} (hroom : addr.length < naddr)
    (hinside : ∀ a ∈ addr, a.Inside d) :
    Safe d naddr (answerLoop d cfg naddr n p addr) ↔ Framed d cfg naddr n p addr.length := by
  induction n generalizing p addr with
  | zero => exact iff_of_true ⟨0, addr, rfl, hroom.le, hinside⟩ trivial
  | succ n ih =>
    rw [answerLoop, Framed]
    by_cases hend : dnsParseName d p = d.length
    · rw [if_pos hend]
      refine iff_of_true ⟨_, addr, rfl, hroom.le, hinside⟩ fun q hname hq => ?_
      rw [nameEnds_iff hq] at hname
      omega
    have hlt : dnsParseName d p < d.length := lt_of_le_of_ne (dnsParseName_mem p).2 hend
    rw [if_neg hend]
    by_cases hten : dnsParseName d p + 10 ≤ d.length
    · obtain ⟨ans, hans⟩ := readAnswer_eq hten
      have hnext : ∀ {P : Nat → Prop}, (∀ q, NameEnds d p q → q < d.length → P q) ↔
          P (dnsParseName d p) := by
        refine ⟨fun h => h _ ((nameEnds_iff hlt).mpr rfl) hlt, fun h q hname hq => ?_⟩
        rw [nameEnds_iff hq] at hname
        exact hname ▸ h
      rw [hnext, hans, bind_some]
      simp only [hten, true_and, Option.some.injEq, forall_eq']
      cases hfamily : family? d cfg (dnsParseName d p) ans with
      | none =>
        simp only [true_implies, reduceCtorEq, false_implies, implies_true, and_true]
        exact ih hroom hinside
      | some f =>
        obtain ⟨-, rfl, hfits⟩ := family?_some hfamily
        have hadded : ∀ a ∈ addr ++ [⟨f, (d.drop (dnsParseName d p + 10)).take f.size⟩], a.Inside d := by
          intro a ha
          rcases mem_append.mp ha with hold | hnew
          · exact hinside a hold
          · rw [mem_singleton.mp hnew]
            exact ⟨_, hans, hfits, rfl⟩
        simp only [reduceCtorEq, false_implies, true_and, Option.some.injEq, forall_eq']
        rw [readBytes, if_pos hfits, bind_some, length_append, length_singleton]
        by_cases hfull : naddr ≤ addr.length + 1
        · rw [if_pos hfull]
          refine iff_of_true ⟨_, _, rfl, ?_, hadded⟩ fun hmore => absurd hmore (by omega)
          rw [length_append, length_singleton]
          omega
        · rw [if_neg hfull, forall_prop_of_true (by omega),
            ih (by rw [length_append, length_singleton]; omega) hadded,
            length_append, length_singleton]
    · rw [readAnswer_none hten]
      exact iff_of_false not_safe_none fun h =>
        hten (h _ ((nameEnds_iff hlt).mpr rfl) hlt).1

theorem recvQuestion_safe_iff (hpos : 0 < naddr) (qinfo : QueryInfo) (hdr : Header) (q : Nat) :
    Safe d naddr (recvQuestion d cfg naddr qinfo hdr q) ↔ q + 2 ≤ d.length ∧
      (read16 d q = some qinfo.rectype → q + 4 ≤ d.length ∧
        (read16 d (q + 2) = some dnsClassIn → Framed d cfg naddr hdr.numanswers (q + 4) 0)) := by
  unfold recvQuestion
  by_cases htwo : q + 2 ≤ d.length
  · obtain ⟨type, htype⟩ := read16_eq htwo
    rw [htype, bind_some, Option.some.injEq, and_iff_right htwo]
    by_cases heq : type = qinfo.rectype
    · rw [if_neg (not_not_intro heq), forall_prop_of_true heq]
      by_cases hfour : q + 4 ≤ d.length
      · obtain ⟨cls, hcls⟩ := read16_eq (show q + 2 + 2 ≤ d.length by omega)
        rw [hcls, bind_some, Option.some.injEq, and_iff_right hfour]
        by_cases hclass : cls = dnsClassIn
        · rw [if_neg (not_not_intro hclass), forall_prop_of_true hclass, safe_map]
          exact answerLoop_safe_iff hpos (forall_mem_nil _)
        · rw [if_pos hclass]
          exact iff_of_true (safe_refused _) fun h => absurd h hclass
      · rw [read16_none (show ¬ q + 2 + 2 ≤ d.length by omega)]
        exact iff_of_false not_safe_none fun h => hfour h.1
    · rw [if_pos heq]
      exact iff_of_true (safe_refused _) fun h => absurd h heq
  · rw [read16_none htwo]
    exact iff_of_false not_safe_none fun h => htwo h.1

/-- **A response is parsed safely exactly if it is readable**, whatever its length and its bytes are. -/
theorem response_safe_iff_readable (cfg : Family → Bool) (d : List UInt8) (naddr : Int)
    (qinfo : QueryInfo) :
    Safe d naddr.toNat (dnsRecvResponse d cfg naddr qinfo) ↔ Readable d cfg naddr qinfo := by
  have hrefused : ∀ ret, (∀ hdr q, 0 < naddr → ¬ Answers d qinfo hdr q) →
      (Safe d naddr.toNat (some (ret, [])) ↔ Readable d cfg naddr qinfo) := fun ret h =>
    iff_of_true (safe_refused ret) fun hdr q hpos hanswers => absurd hanswers (h hdr q hpos)
  unfold dnsRecvResponse
  by_cases hpos : naddr ≤ 0
  · rw [if_pos hpos]
    exact hrefused _ fun _ _ h => absurd h (by omega)
  by_cases hlen : d.length < 12
  · rw [if_neg hpos, if_pos hlen]
    exact hrefused _ fun _ _ _ h => absurd h.length (by omega)
  obtain ⟨hdr, hhdr⟩ := readHeader_eq (Nat.le_of_not_lt hlen)
  have hsame : ∀ {hdr' q}, Answers d qinfo hdr' q → hdr' = hdr ∧ dnsParseName d 12 = q := fun h =>
    ⟨Option.some.inj (h.header.symm.trans hhdr), (nameEnds_iff h.inside).mp h.name⟩
  rw [if_neg hpos, if_neg hlen, hhdr, bind_some]
  dsimp only
  split_ifs with hflags hid hquestions hend hlong
  · exact hrefused _ fun _ _ _ h => hflags ((hsame h).1 ▸ h.flags)
  · exact hrefused _ fun _ _ _ h => hid ((hsame h).1 ▸ h.id)
  · exact hrefused _ fun _ _ _ h => hquestions ((hsame h).1 ▸ h.numquestions)
  · refine hrefused _ fun _ _ _ h => ?_
    have hinside := h.inside
    rw [← (hsame h).2] at hinside
    omega
  · refine hrefused _ fun _ _ _ h => ?_
    have hle := h.long
    rw [← (hsame h).2] at hle
    omega
  obtain ⟨hge, hle⟩ := dnsParseName_mem (d := d) 12
  have hlt := lt_of_le_of_ne hle hend
  rw [readBytes, if_pos (by omega), bind_some]
  split_ifs with hname
  · exact hrefused _ fun _ _ _ h => hname h.asked
  rw [recvQuestion_safe_iff (by omega)]
  have hanswers : Answers d qinfo hdr (dnsParseName d 12) :=
    ⟨hhdr, by omega, not_not.mp hflags, not_not.mp hid, not_not.mp hquestions,
      (nameEnds_iff hlt).mpr rfl, hlt, by omega, not_not.mp hname⟩
  constructor
  · intro h hdr' q _ hanswers'
    obtain ⟨rfl, rfl⟩ := hsame hanswers'
    exact h
  · intro h
    exact h hdr _ (by omega) hanswers

/-- A response with one question and no answers that ends after the first byte of the question's type. -/
def truncated : List UInt8 := [0, 7, 0x80, 0, 0, 1, 0, 0, 0, 0, 0, 0, 1, 97, 0, 0]

/-- **A response that ends in the question**: the 16 bytes are accepted up to the name, and then the
byte behind them is read. -/
theorem truncated_question_read : ¬ Safe truncated 1 (dnsRecvResponse truncated (fun _ => true) 1 ⟨7, 1, [1, 97]⟩) := by
  have hname : dnsParseName truncated 12 = 15 := by
    rw [dnsParseName, dif_pos (by decide), if_neg (by decide), if_neg (by decide), dnsParseName,
      dif_pos (by decide), if_neg (by decide), if_pos (by decide)]
    rfl
  have hread : dnsRecvResponse truncated (fun _ => true) 1 ⟨7, 1, [1, 97]⟩ = none := by
    rw [dnsRecvResponse, hname]
    decide
  rw [hread]
  exact not_safe_none

end Nuttx.Dns
