import Mathlib.Data.List.Pairwise
import Nuttx.Library.Runs
import Nuttx.Net.Route.Cache

/-!
# Is the cache transparent?

The initialised cache is full of entries that were never filled, and these answer lookups.
-/

open List

namespace Nuttx.Route

variable {n : Nat}

def Transparent (host : Host n) (target : UInt32) : Prop :=
  (host.netIpv4Router target).map Prod.fst = some (scan target host.table)

def DisjointNetworks (table : List Ipv4Route) : Prop :=
  table.Pairwise fun r s => ∀ target, ¬ (netIpv4Match r target = true ∧ netIpv4Match s target = true)

variable {target : UInt32} {host : Host n}

theorem Cache.netResetCache_eq (c : Cache n) :
    c.netResetCache = ⟨c.prealloc, (List.finRange n).reverse, []⟩ := by
  have hfold : ∀ (slots : List (Fin n)) (c : Cache n),
      slots.foldl (fun c slot => c.netAddNewest slot) c = { c with cache := slots.reverse ++ c.cache } := by
    intro slots
    induction slots with
    | nil => exact fun c => rfl
    | cons slot slots ih =>
      intro c
      rw [foldl_cons, ih, netAddNewest, reverse_cons, append_assoc, singleton_append]
  rw [netResetCache, hfold, append_nil]

def Blank (host : Host n) : Prop := host.cache = ⟨fun _ => ⟨0, 0, 0⟩, (List.finRange n).reverse, []⟩

theorem blank_init (table : List Ipv4Route) : Blank ⟨table, Cache.netInitCacheroute n⟩ :=
  Cache.netResetCache_eq _

theorem netIpv4Match_blank (target : UInt32) : netIpv4Match ⟨0, 0, 0⟩ target = true := by
  unfold netIpv4Match netIpv4addrMaskcmp
  rw [UInt32.and_zero, UInt32.and_zero]
  rfl

theorem Cache.find_newest {p : Ipv4Route → Bool} {c : Cache n} {slot : Fin n} {slots : List (Fin n)}
    (hcache : c.cache = slot :: slots) (h : p (c.prealloc slot) = true) : c.find p = some slot := by
  rw [Cache.find, hcache]
  exact List.find?_cons_of_pos h

theorem Blank.lookup {host : Host (n + 1)} (h : Blank host)
    (hcast : target ≠ inaddrBroadcast) : host.netIpv4Router target = some (some 0, host) := by
  obtain ⟨table, cache⟩ := host
  obtain ⟨slot, slots, hslots⟩ :=
    exists_cons_of_ne_nil (show (List.finRange (n + 1)).reverse ≠ [] by simp)
  obtain rfl : cache = ⟨fun _ => ⟨0, 0, 0⟩, slot :: slots, []⟩ := hslots ▸ h
  have hfind : Cache.netForeachcache target ⟨fun _ => ⟨0, 0, 0⟩, slot :: slots, []⟩ = some ⟨0, 0, 0⟩ := by
    rw [Cache.netForeachcache, Cache.find_newest rfl (netIpv4Match_blank target)]
    rfl
  have hadd : Cache.netAddcache ⟨0, 0, 0⟩ ⟨fun _ => ⟨0, 0, 0⟩, slot :: slots, []⟩ =
      some ⟨fun _ => ⟨0, 0, 0⟩, slot :: slots, []⟩ := by
    rw [Cache.netAddcache, Cache.find_newest rfl rfl]
    exact if_pos rfl
  rw [Host.netIpv4Router, if_neg hcast, hfind]
  dsimp only
  rw [hadd]
  rfl

theorem Blank.lookup_zero {host : Host 0} (h : Blank host) (hcast : target ≠ inaddrBroadcast) :
    host.netIpv4Router target =
      if scan target host.table = none then some (none, host) else none := by
  obtain ⟨table, cache⟩ := host
  obtain rfl : cache = ⟨fun _ => ⟨0, 0, 0⟩, [], []⟩ := h
  rw [Host.netIpv4Router, if_neg hcast, scan, if_neg hcast]
  cases netForeachroute target table with
  | none => rfl
  | some route => rfl

def blankAnswer (n : Nat) : Option UInt32 := if n = 0 then none else some 0

def BlankLaw (host : Host n) (target : UInt32) : Prop :=
  target = inaddrBroadcast ∨ scan target host.table = blankAnswer n

theorem Blank.transparent_iff (h : Blank host) (target : UInt32) :
    Transparent host target ↔ BlankLaw host target := by
  unfold Transparent BlankLaw
  by_cases hcast : target = inaddrBroadcast
  · rw [Host.netIpv4Router, scan, if_pos hcast, if_pos hcast]
    exact ⟨fun _ => .inl hcast, fun _ => rfl⟩
  rw [or_iff_right hcast]
  cases n with
  | zero =>
    rw [h.lookup_zero hcast]
    by_cases hscan : scan target host.table = none
    · rw [if_pos hscan, hscan]
      exact ⟨fun _ => rfl, fun _ => rfl⟩
    · rw [if_neg hscan]
      exact ⟨fun hnone => absurd hnone.symm (Option.some_ne_none _), fun hnone => absurd hnone hscan⟩
  | succ n =>
    rw [h.lookup hcast, blankAnswer, if_neg (Nat.succ_ne_zero n)]
    exact ⟨fun hsome => (Option.some.inj hsome).symm, fun hscan => congrArg some hscan.symm⟩

theorem Blank.step {host' : Host n} (h : Blank host) {event : Event}
    (hstep : host.step event = some host') : Blank host' := by
  have hflush : host.cache.netFlushcache = ⟨fun _ => ⟨0, 0, 0⟩, (List.finRange n).reverse, []⟩ := by
    rw [Cache.netFlushcache, Cache.netResetCache_eq, h]
  cases event with
  | lookup target =>
    by_cases hcast : target = inaddrBroadcast
    · rw [Host.step, Host.netIpv4Router, if_pos hcast] at hstep
      exact Option.some.inj hstep ▸ h
    cases n with
    | zero =>
      rw [Host.step, h.lookup_zero hcast] at hstep
      by_cases hscan : scan target host.table = none
      · rw [if_pos hscan] at hstep
        exact Option.some.inj hstep ▸ h
      · rw [if_neg hscan] at hstep
        exact absurd hstep.symm (Option.some_ne_none _)
    | succ n =>
      rw [Host.step, h.lookup hcast] at hstep
      exact Option.some.inj hstep ▸ h
  | delete target netmask =>
    obtain rfl := Option.some.inj hstep
    unfold Host.netDelroute
    by_cases hany : host.table.any (netMatchIpv4 target netmask) = true
    · rw [if_pos hany]
      exact hflush
    · rw [if_neg hany]
      exact h
  | flush =>
    obtain rfl := Option.some.inj hstep
    exact hflush

/-- What `P` says of every lookup of a run, which ends where a lookup dereferences NULL. -/
abbrev RunAll (P : Host n → UInt32 → Prop) : Host n → List Event → Prop :=
  Runs.SomeAlong Host.step fun host event => ∀ target, event = .lookup target → P host target

/-- **When the cache is transparent.** From the initialised cache of any size, the lookups of a run answer
as the current table does exactly if they are for the broadcast address, or for a target that the table
routes to 0.0.0.0 (without entries: for a target that the table does not route). -/
theorem cache_transparent_iff (n : Nat) (table : List Ipv4Route) (events : List Event) :
    RunAll Transparent (⟨table, Cache.netInitCacheroute n⟩ : Host n) events ↔
      RunAll BlankLaw (⟨table, Cache.netInitCacheroute n⟩ : Host n) events :=
  Runs.SomeAlong.congr Blank (fun h hstep => h.step hstep) (fun _ _ h =>
    forall_congr' fun target => imp_congr_right fun _ => h.transparent_iff target) (blank_init table) events

theorem blank_entry_answers :
    DisjointNetworks [⟨0x0a000000, 0xff000000, 0xc0a80001⟩] ∧
      (Host.netIpv4Router 0x0a010203
        (⟨[⟨0x0a000000, 0xff000000, 0xc0a80001⟩], Cache.netInitCacheroute 4⟩ : Host 4)).map Prod.fst =
          some (some 0) ∧
      (Host.netIpv4Router 0x0b010203
        (⟨[⟨0x0a000000, 0xff000000, 0xc0a80001⟩], Cache.netInitCacheroute 4⟩ : Host 4)).map Prod.fst =
          some (some 0) ∧
      scan 0x0a010203 [⟨0x0a000000, 0xff000000, 0xc0a80001⟩] = some 0xc0a80001 ∧
      scan 0x0b010203 [⟨0x0a000000, 0xff000000, 0xc0a80001⟩] = none ∧
      ¬ RunAll Transparent
        (⟨[⟨0x0a000000, 0xff000000, 0xc0a80001⟩], Cache.netInitCacheroute 4⟩ : Host 4)
        [.lookup 0x0a010203] := by
  refine ⟨pairwise_singleton _ _, by decide, by decide, by decide, by decide, fun hrun => ?_⟩
  exact absurd (hrun.1 0x0a010203 rfl) (by unfold Transparent; decide)

end Nuttx.Route
