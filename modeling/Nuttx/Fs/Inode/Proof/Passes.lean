import Nuttx.Fs.Inode.Proof.Frame

/-!
# A search comes to the nodes it should

If a search returns, then its loop came to every node that the lookup of the path comes to.
-/

open Option

namespace Nuttx.Fs

open SiblingTree SiblingTree.Forest

variable {cfg : Config} {h : Heap} {root : Addr} {leads : List UInt8 → Addr → Prop}

def Complete (leads : List UInt8 → Addr → Prop) (search : Desc → Option Found) : Prop :=
  ∀ link found b, search (.setup link true) = some found → leads link b →
    found.ret = .ok ∧ found.desc.node = some b

section LinkTarget

variable {search : Desc → Option Found} {a b : Addr} {inode : Inode} {link : List UInt8}
  {fuel count k : Nat} {last r : Found}

theorem linktargetLoop_searched (hnode : h a = some inode) (hlink : inode.link? = some link)
    (hloop : linktargetLoop cfg h search fuel count a last = some r) :
    ∃ fuel' found, fuel = fuel' + 1 ∧ search (.setup link true) = some found := by
  cases fuel with
  | zero => exact absurd hloop.symm (some_ne_none r)
  | succ fuel =>
    cases hsearch : search (.setup link true) with
    | none => simp [linktargetLoop, hnode, hlink, hsearch] at hloop
    | some found => exact ⟨fuel, found, rfl, rfl⟩

variable (hcomplete : Complete leads search) (hhops : Hops h leads k a b)
include hcomplete hhops

theorem linktargetLoop_resolves
    (hnode : h b = some inode) (hlink : inode.link? = none) (hk : count + k ≤ cfg.symloopMax)
    (hlast : k = 0 → last.ret = .ok ∧ last.desc.node = some b)
    (hloop : linktargetLoop cfg h search fuel count a last = some r) :
    r.ret = .ok ∧ r.desc.node = some b := by
  induction hhops generalizing fuel count last with
  | stay a =>
    cases fuel with
    | zero => exact absurd hloop.symm (some_ne_none r)
    | succ fuel =>
      rw [linktargetLoop_none hnode hlink] at hloop
      exact Option.some.inj hloop ▸ hlast rfl
  | @hop k a a1 b inode' link' ha hl hlead hrest ih =>
    obtain ⟨fuel, found, rfl, hsearch⟩ := linktargetLoop_searched ha hl hloop
    obtain ⟨hret, hnext⟩ := hcomplete _ _ _ hsearch hlead
    rw [linktargetLoop_goes ha hl hsearch hret hnext (by omega)] at hloop
    have hlast' : k = 0 → (found.after (last.steps + 1)).ret = .ok ∧
        (found.after (last.steps + 1)).desc.node = some b := by
      rintro rfl
      cases hrest with
      | stay => exact ⟨hret, hnext⟩
    exact ih hnode (by omega) hlast' hloop

theorem linktargetLoop_searches
    (hnode : h b = some inode) (hlink : inode.link? = some link) (hk : count + k ≤ cfg.symloopMax)
    (hloop : linktargetLoop cfg h search fuel count a last = some r) :
    ∃ found, search (.setup link true) = some found := by
  induction hhops generalizing fuel count last with
  | stay a =>
    obtain ⟨-, found, -, hsearch⟩ := linktargetLoop_searched hnode hlink hloop
    exact ⟨found, hsearch⟩
  | hop ha hl hlead hrest ih =>
    obtain ⟨fuel, found, rfl, hsearch⟩ := linktargetLoop_searched ha hl hloop
    obtain ⟨hret, hnext⟩ := hcomplete _ _ _ hsearch hlead
    rw [linktargetLoop_goes ha hl hsearch hret hnext (by omega)] at hloop
    exact ih hnode (by omega) hloop

theorem linktargetLoop_eloop (hpos : 0 < k) (hk : count + k = cfg.symloopMax + 1)
    (hloop : linktargetLoop cfg h search fuel count a last = some r) : r.ret = .error .eloop := by
  induction hhops generalizing fuel count last with
  | stay a => exact absurd hpos (lt_irrefl 0)
  | @hop k a a1 b inode' link' ha hl hlead hrest ih =>
    obtain ⟨fuel, found, rfl, hsearch⟩ := linktargetLoop_searched ha hl hloop
    obtain ⟨hret, hnext⟩ := hcomplete _ _ _ hsearch hlead
    by_cases hzero : k = 0
    · rw [linktargetLoop_stops ha hl hsearch hret (by omega)] at hloop
      rw [← Option.some.inj hloop]
    · rw [linktargetLoop_goes ha hl hsearch hret hnext (by omega)] at hloop
      exact ih (Nat.pos_of_ne_zero hzero) (by omega) hloop

end LinkTarget

def Passes (cfg : Config) (h : Heap) (nodes : List Addr) (linktarget : Addr → Option Found)
    (nofollow : Bool) (found : Found) (a : Addr) (rest : List UInt8) : Prop :=
  ∃ fuel name left above inode found' n,
    searchLoop cfg h linktarget nofollow (fuel + 1) ⟨name, some a, left, above⟩ = some found' ∧
      found = found'.after n ∧ a ∈ nodes ∧ h a = some inode ∧
      inodeCompare cfg name inode.iName = 0 ∧ inodeNextname name = rest

section Loop

variable {t : Tree} {path rest : List UInt8} {linktarget : Addr → Option Found} {nofollow : Bool}
  {found : Found} {a : Addr}

theorem searchLoop_passes (hstands : Stands cfg (fun _ => True) h root t)
    (htarget : ∀ a rest b inode target, Meets cfg h root leads path a rest → rest ≠ [] →
      a ∈ root :: t.nodes → h a = some inode → inode.link?.isSome = true →
      linktarget a = some target → Continues cfg h leads a b →
      target.ret = .ok ∧ target.desc.node = some b ∧ b ∈ root :: t.nodes)
    {fuel : Nat}
    (hstart : searchLoop cfg h linktarget nofollow fuel ⟨path, some root, none, none⟩ = some found)
    (hmeets : Meets cfg h root leads path a rest) :
    Passes cfg h (root :: t.nodes) linktarget nofollow found a rest := by
  induction hmeets with
  | root hhead =>
    obtain ⟨inode, hnode, -, hname, -, -⟩ := hstands.top
    cases fuel with
    | zero => exact absurd hstart.symm (some_ne_none found)
    | succ fuel =>
      refine ⟨fuel, path, none, none, inode, found, 0, hstart, by rw [Found.after_zero]; rfl,
        List.mem_cons_self, hnode, ?_, rfl⟩
      rw [hname]
      exact inodeCompare_root hhead
  | @down a b c rest cinode hmeets hrest hcont hchild hc hname ih =>
    obtain ⟨fuel, name, left, above, inode, found', n, hloop, rfl, hmem, hnode, hcompare, rfl⟩ := ih
    obtain ⟨k, binode, hk, hhops, hb, hbmount, hblink⟩ := hcont
    -- the search goes on below `b`
    have hbelow : ∃ found'' m, searchLoop cfg h linktarget nofollow fuel
        ⟨inodeNextname name, binode.iChild, none, some b⟩ = some found'' ∧ found' = found''.after m ∧
          b ∈ root :: t.nodes := by
      cases hlink : inode.link? with
      | none =>
        obtain rfl : a = b := by
          cases hhops with
          | stay => rfl
          | hop ha hl =>
            obtain rfl := Option.some.inj (ha.symm.trans hnode)
            exact absurd (hl.symm.trans hlink) (some_ne_none _)
        obtain rfl : inode = binode := Option.some.inj (hnode.symm.trans hb)
        rw [searchLoop_down hnode hcompare hrest hbmount hlink] at hloop
        obtain ⟨found'', hinner, rfl⟩ := map_eq_some_iff.mp hloop
        exact ⟨found'', 1, hinner, rfl, hmem⟩
      | some link =>
        have hsome : inode.link?.isSome = true := by rw [hlink]; rfl
        have htgt : ∃ target, linktarget a = some target := by
          rw [searchLoop_link hnode hcompare hrest hsome] at hloop
          obtain ⟨target, htgt, -⟩ := bind_eq_some_iff.mp hloop
          exact ⟨target, htgt⟩
        obtain ⟨target, htgt⟩ := htgt
        obtain ⟨hret, hbnode, hbmem⟩ := htarget a _ b inode target hmeets hrest hmem hnode hsome htgt
          ⟨k, binode, hk, hhops, hb, hbmount, hblink⟩
        rw [searchLoop_taken hnode hcompare hrest hsome htgt hret hbnode hb hbmount] at hloop
        obtain ⟨found'', hinner, rfl⟩ := map_eq_some_iff.mp hloop
        exact ⟨found'', target.steps + 1, hinner, rfl, hbmem⟩
    obtain ⟨found'', m, hinner, rfl, hbmem⟩ := hbelow
    obtain ⟨u, binode', hb', -, hfirst, hu, hasc, hsub, -⟩ := tree_below hstands hbmem
    obtain rfl : binode = binode' := Option.some.inj (hb.symm.trans hb')
    have hhas : u.Has [(inodeNextname name).takeWhile inName] c := by
      rw [← hname]
      exact has_of_child hb hu hfirst hchild hc
    rw [hfirst] at hinner
    rcases searchLoop_level cfg linktarget nofollow hu (inodeNextname name) none (some b) with
      ⟨k, left', -, hnone, -⟩ | ⟨k, left', c', -, hhas', hlevel⟩
    · exact absurd hhas (hnone hasc c)
    obtain rfl : c = c' := hhas.unique hasc hhas'
    rw [hlevel] at hinner
    split_ifs at hinner with hfuel
    obtain ⟨found3, hlast, rfl⟩ := map_eq_some_iff.mp hinner
    cases hrounds : fuel - k with
    | zero =>
      rw [hrounds] at hlast
      exact absurd hlast.symm (some_ne_none found3)
    | succ fuel' =>
      rw [hrounds] at hlast
      refine ⟨fuel', inodeNextname name, left', some b, cinode, found3, n + (m + k), hlast, ?_,
        List.mem_cons_of_mem _ (hsub hhas.mem_nodes), hc, inodeCompare_eq_zero hname, rfl⟩
      rw [Found.after_after, Found.after_after, Nat.add_assoc]

end Loop

end Nuttx.Fs
