import Nuttx.Fs.Inode.Proof.Passes
import Mathlib.Data.Finset.Order

/-!
# Which lookups return

A lookup returns exactly if no path is looked up for its own sake, and then within bounds.
-/

open List Option

namespace Nuttx.Fs

open SiblingTree SiblingTree.Forest

variable {cfg : Config} {h : Heap} {root : Addr} {t : Tree} {leads : List UInt8 → Addr → Prop}
  {inode : Inode} {path rest link : List UInt8} {nodes : List Addr} {a : Addr} {k fuel depth : Nat}
  {nofollow : Bool} {found : Found} {search : Desc → Option Found}

theorem Hops.mem (hleads : ∀ path a, leads path a → a ∈ nodes) {b : Addr}
    (hhops : Hops h leads k a b) (ha : a ∈ nodes) : b ∈ nodes := by
  induction hhops with
  | stay a => exact ha
  | hop _ _ hlead _ ih => exact ih (hleads _ _ hlead)

theorem Hops.isLink {b : Addr} {link : List UInt8}
    (hhops : Hops h leads k a b) (hnode : h b = some inode) (hlink : inode.link? = some link) :
    ∃ inode link, h a = some inode ∧ inode.link? = some link := by
  cases hhops with
  | stay => exact ⟨inode, link, hnode, hlink⟩
  | hop ha hl => exact ⟨_, _, ha, hl⟩

theorem Hops.isLink_of_pos {a b : Addr} (hhops : Hops h leads (k + 1) a b) :
    ∃ inode link, h a = some inode ∧ inode.link? = some link := by
  cases hhops with
  | hop ha hl => exact ⟨_, _, ha, hl⟩

theorem Meets.head (hmeets : Meets cfg h root leads path a rest) : path.head? = some slash := by
  induction hmeets with
  | root hhead => exact hhead
  | down _ _ _ _ _ _ ih => exact ih

theorem components_length_le (path : List UInt8) : (components path).length ≤ path.length := by
  induction path with
  | nil => exact Nat.zero_le _
  | cons c path ih =>
    by_cases hc : c = slash
    · subst hc
      rw [components_slash]
      exact ih.trans (Nat.le_succ _)
    obtain ⟨rest, hsplit, -⟩ := splitOnP_slash path
    have hcons : components (c :: path) = (c :: path.takeWhile inName) :: rest.filter (· ≠ []) := by
      simp [components, splitOnP_cons_eq_if_modifyHead, hc, hsplit]
    have htail : (rest.filter (· ≠ [])).length ≤ (components path).length := by
      rw [components, hsplit]
      exact ((sublist_cons_self _ _).filter _).length_le
    rw [hcons, length_cons, length_cons]
    omega

theorem searchFrom_mono {search search' : Desc → Option Found}
    (hle : ∀ desc found, search desc = some found → search' desc = some found) {fuel' : Nat}
    (hfuel : fuel ≤ fuel') {desc : Desc} {found : Found}
    (hsearch : searchFrom cfg h root (inodeLinktarget cfg h search) fuel desc = some found) :
    searchFrom cfg h root (inodeLinktarget cfg h search') fuel' desc = some found := by
  rw [searchFrom] at hsearch ⊢
  split_ifs at hsearch ⊢ with hhead
  · refine searchLoop_mono (fun a r hr => ?_) hfuel hsearch
    obtain ⟨inner, hinner, rfl⟩ := map_eq_some_iff.mp hr
    rw [inodeLinktarget, linktargetLoop_mono hle hinner, map_some]
  · exact hsearch

theorem Reached.leadsTo {found : Found}
    (hreached : Reached h (root :: t.nodes) (Meets cfg h root (LeadsTo cfg h root) path · []) found) :
    Reached h (root :: t.nodes) (LeadsTo cfg h root path) found := by
  intro hok
  obtain ⟨a, inode, hnode, hmem, ha, hrel, hgood⟩ := hreached hok
  refine ⟨a, inode, hnode, hmem, ha, hrel, ?_⟩
  cases hmount : inode.isMountpt with
  | true => exact .inl rfl
  | false => exact .inr (leadsTo_of_meets (hgood.resolve_left (by simp [hmount])) ha hmount)

theorem Passes.last {linktarget : Addr → Option Found}
    (hpasses : Passes cfg h nodes linktarget nofollow found a []) :
    found.ret = .ok ∧ found.desc.node = some a := by
  obtain ⟨fuel, name, left, above, inode, found', n, hloop, rfl, -, hnode, hcompare, hend⟩ := hpasses
  rw [searchLoop_end hnode hcompare (.inl hend)] at hloop
  rw [← Option.some.inj hloop]
  exact ⟨rfl, rfl⟩

theorem Passes.linktarget {linktarget : Addr → Option Found}
    (hpasses : Passes cfg h nodes linktarget nofollow found a rest) (hrest : rest ≠ [])
    (hnode : h a = some inode) (hlink : inode.link? = some link) :
    ∃ target, linktarget a = some target ∧ (∀ e, target.ret = .error e → found.ret = .error e) := by
  obtain ⟨fuel, name, left, above, inode', found', n, hloop, rfl, -, hnode', hcompare, rfl⟩ := hpasses
  obtain rfl : inode = inode' := Option.some.inj (hnode.symm.trans hnode')
  have hsome : inode.link?.isSome = true := by rw [hlink]; rfl
  have htarget := hloop
  rw [searchLoop_link hnode hcompare hrest hsome] at htarget
  obtain ⟨target, htarget, -⟩ := bind_eq_some_iff.mp htarget
  refine ⟨target, htarget, fun e he => ?_⟩
  rw [searchLoop_error hnode hcompare hrest hsome htarget he] at hloop
  rw [← Option.some.inj hloop]
  rfl

theorem le_foldr_max {l : List Nat} {n m : Nat} (hn : n ∈ l) : n ≤ l.foldr max m := by
  induction l with
  | nil => exact absurd hn not_mem_nil
  | cons k l ih =>
    rcases mem_cons.mp hn with rfl | hn
    · exact le_max_left _ _
    · exact (ih hn).trans (le_max_right _ _)

theorem init_le_foldr_max (l : List Nat) (m : Nat) : m ≤ l.foldr max m := by
  induction l with
  | nil => exact le_rfl
  | cons k l ih => exact ih.trans (le_max_right _ _)

theorem inodeSearchBuffer_le {desc : Desc} {found : Found}
    (hsearch : inodeSearchBuffer cfg h root fuel depth desc = some found) :
    inodeSearchAux cfg h root fuel depth desc = some found := by
  cases depth with
  | zero => exact absurd hsearch.symm (some_ne_none found)
  | succ depth =>
    rw [inodeSearchBuffer, searchFrom] at hsearch
    rw [inodeSearchAux, searchFrom]
    split_ifs at hsearch ⊢
    · refine searchLoop_mono (fun a r hr => ?_) le_rfl hsearch
      obtain ⟨target, htarget, hreleased⟩ := bind_eq_some_iff.mp hr
      have hsame : r = target := by
        simp only [released] at hreleased
        split at hreleased
        · exact (Option.some.inj hreleased).symm
        · obtain ⟨inode, -, hreleased⟩ := bind_eq_some_iff.mp hreleased
          split_ifs at hreleased
          exact (Option.some.inj hreleased).symm
      rw [hsame]
      exact htarget
    · exact hsearch

theorem inodeSearch_full {found : Found} (hpath : HasPath cfg path)
    (hsearch : inodeSearch cfg h root fuel depth (.setup path nofollow) = some found) :
    ∃ first, inodeSearchAux cfg h root fuel depth (.setup (fullPath cfg path) nofollow) = some first ∧
      followTerminal cfg h root fuel depth first = some found := by
  rw [inodeSearch, Desc.setup_path] at hsearch
  by_cases hhead : path.head? = some slash
  · rw [if_pos hhead] at hsearch
    rw [fullPath, if_pos hhead]
    exact bind_eq_some_iff.mp hsearch
  have hmem := hpath.resolve_left hhead
  rw [fullPath, if_neg hhead] at hmem ⊢
  rw [if_neg hhead] at hsearch
  simp only [hmem, if_true] at hsearch
  obtain ⟨first, hfirst, hlast⟩ := bind_eq_some_iff.mp hsearch
  exact ⟨first, inodeSearchBuffer_le hfirst, hlast⟩

theorem inodeSearchAux_nofollow
    (hsearch : inodeSearchAux cfg h root fuel depth (.setup path nofollow) = some found) :
    found.desc.nofollow = nofollow := by
  cases depth with
  | zero => exact absurd hsearch.symm (some_ne_none found)
  | succ depth =>
    rw [inodeSearchAux, searchFrom, Desc.setup_path, Desc.setup_nofollow] at hsearch
    split_ifs at hsearch with hhead
    · exact searchLoop_nofollow hsearch
    · rw [← Option.some.inj hsearch]
      rfl

theorem followTerminal_link (hret : found.ret = .ok)
    (hnode : found.desc.node = some a) (ha : h a = some inode) (hlink : inode.link? = some link)
    (hnofollow : found.desc.nofollow = false) :
    followTerminal cfg h root fuel depth found =
      (inodeLinktarget cfg h (inodeSearchAux cfg h root fuel depth) found.desc a).map
        (.after found.steps) := by
  simp [followTerminal, hret, hnode, ha, hlink, hnofollow]

theorem stepBound_succ (symloopMax size length depth : Nat) :
    stepBound symloopMax size length depth +
        (symloopMax + 1) * (stepBound symloopMax size length depth + 1) ≤
      stepBound symloopMax size length (depth + 1) := by
  rw [stepBound]
  generalize stepBound symloopMax size length depth = bound
  have hone : bound ≤ (symloopMax + 1) * (bound + 1) := by
    rw [Nat.add_mul, Nat.one_mul]
    omega
  have htwo : 2 * (size + 2 + (symloopMax + 1) * (bound + 1)) ≤
      (length + 2) * (size + 2 + (symloopMax + 1) * (bound + 1)) := Nat.mul_le_mul_right _ (by omega)
  omega

theorem inodeSearch_nomem (hpath : ¬HasPath cfg path) :
    inodeSearch cfg h root fuel depth (.setup path nofollow) =
      some ⟨.error .enomem, .setup path nofollow, 1⟩ := by
  obtain ⟨hhead, hmem⟩ := not_or.mp hpath
  rw [fullPath, if_neg hhead] at hmem
  rw [inodeSearch, Desc.setup_path, if_neg hhead]
  simp [hmem]

section

variable (hstands : Stands cfg (fun _ => True) h root t)

include hstands

theorem Meets.mem (hleads : ∀ path a, leads path a → a ∈ root :: t.nodes)
    (hmeets : Meets cfg h root leads path a rest) : a ∈ root :: t.nodes := by
  induction hmeets with
  | root _ => exact mem_cons_self
  | down _ _ hcont hchild hc _ ih =>
    obtain ⟨k, inode, -, hhops, hb, -⟩ := hcont
    obtain ⟨u, inode', hb', -, hfirst, hu, -, hsub, -⟩ := tree_below hstands (hhops.mem hleads ih)
    exact mem_cons_of_mem _ (hsub (has_of_child hb' hu hfirst hchild hc).mem_nodes)

theorem LeadsTo.mem (hleads : LeadsTo cfg h root path a) : a ∈ root :: t.nodes :=
  hleads (fun _ a => a ∈ root :: t.nodes) fun _ _ _ hmeets _ _ => hmeets.mem hstands fun _ _ ha => ha

theorem searchFrom_reached {bound : Nat}
    (hsound : ∀ link found, search (.setup link true) = some found →
      Reached h (root :: t.nodes) (LeadsTo cfg h root link) found)
    (hreturns : ∀ link, Opens cfg h root false path link →
      ∃ found, search (.setup link true) = some found ∧ found.steps ≤ bound)
    (hfuel : (path.length + 1) * (t.nodes.length + 2) ≤ fuel) (nofollow : Bool) :
    ∃ found, searchFrom cfg h root (inodeLinktarget cfg h search) fuel (.setup path nofollow) = some found ∧
      found.steps ≤
        (path.length + 1) * (t.nodes.length + 2 + (cfg.symloopMax + 1) * (bound + 1)) ∧
      Reached h (root :: t.nodes) (Meets cfg h root (LeadsTo cfg h root) path · []) found := by
  rw [searchFrom, Desc.setup_path, Desc.setup_nofollow]
  by_cases hhead : path.head? = some slash
  · obtain ⟨inode, hnode, -, hname, -, -⟩ := hstands.top
    have hcompare : inodeCompare cfg path inode.iName = 0 := by
      rw [hname]
      exact inodeCompare_root hhead
    have hm : (components (inodeNextname path)).length ≤ path.length := by
      rw [components_absolute hhead]
      exact components_length_le path
    rw [if_pos hhead]
    refine searchLoop_reached hstands (fun a rest inode hmeets hrest hmem ha hlink => ?_) hnode hcompare
      mem_cons_self (.root hhead) hm none none hfuel
    obtain ⟨link, hlink⟩ := isSome_iff_exists.mp hlink
    refine inodeLinktarget_reached hsound ha hlink (fun k b binode blink hk hhops hb hblink => ?_) _
    exact hreturns blink ⟨a, rest, k, b, binode, hmeets, .inl hrest, hk, hhops, hb, hblink⟩
  · rw [if_neg hhead]
    refine ⟨_, rfl, ?_, fun hok => absurd hok Ret.noConfusion⟩
    exact Nat.mul_pos (Nat.succ_pos _) (by omega)

theorem inodeSearchAux_reached {nofollow : Bool} {found : Found}
    (hsearch : inodeSearchAux cfg h root fuel depth (.setup path nofollow) = some found) :
    Reached h (root :: t.nodes) (Meets cfg h root (LeadsTo cfg h root) path · []) found := by
  induction depth generalizing path nofollow found with
  | zero => exact absurd hsearch.symm (some_ne_none found)
  | succ depth ih =>
    -- with an error in place of every call that does not return, all calls do
    let total : Desc → Option Found := fun desc =>
      some ((inodeSearchAux cfg h root fuel depth desc).getD ⟨.error .enoent, desc, 0⟩)
    have hle : ∀ desc found, inodeSearchAux cfg h root fuel depth desc = some found →
        total desc = some found := fun desc found hfound => by
      simp [total, hfound]
    have hsound : ∀ link found, total (.setup link true) = some found →
        Reached h (root :: t.nodes) (LeadsTo cfg h root link) found := by
      intro link found hfound
      cases hinner : inodeSearchAux cfg h root fuel depth (.setup link true) with
      | none =>
        simp only [total, hinner, getD_none] at hfound
        rw [← Option.some.inj hfound]
        exact fun hok => absurd hok Ret.noConfusion
      | some inner =>
        obtain rfl : inner = found := Option.some.inj ((hle _ _ hinner).symm.trans hfound)
        exact (ih hinner).leadsTo
    let cost : Addr → Nat := fun a =>
      ((total (.setup (((h a).bind Inode.link?).getD []) true)).map Found.steps).getD 0
    obtain ⟨bound, hbound⟩ := (((root :: t.nodes).map cost).toFinset).exists_le
    have hreturns : ∀ link, Opens cfg h root false path link →
        ∃ found, total (.setup link true) = some found ∧ found.steps ≤ bound := by
      rintro link ⟨a, rest, k, b, inode, hmeets, -, -, hhops, hb, hlink⟩
      have hmem := hhops.mem (fun _ _ => LeadsTo.mem hstands)
        (hmeets.mem hstands fun _ _ => LeadsTo.mem hstands)
      refine ⟨_, rfl, (hbound (cost b) ?_).trans' (le_of_eq ?_)⟩
      · exact mem_toFinset.mpr (mem_map_of_mem hmem)
      · simp only [cost, hb, hlink, bind_some, getD_some]
        rfl
    obtain ⟨found', hfound', -, hreached⟩ := searchFrom_reached hstands hsound hreturns
      (le_max_right fuel _) nofollow
    have hsame : some found' = some found :=
      hfound'.symm.trans (searchFrom_mono hle (le_max_left fuel _) hsearch)
    exact Option.some.inj hsame ▸ hreached

theorem searchFrom_passes (hcomplete : Complete leads search) (hleads : ∀ path a, leads path a → a ∈ root :: t.nodes)
    (hsearch : searchFrom cfg h root (inodeLinktarget cfg h search) fuel (.setup path nofollow) =
      some found)
    (hmeets : Meets cfg h root leads path a rest) :
    Passes cfg h (root :: t.nodes) (inodeLinktarget cfg h search (.setup path nofollow)) nofollow found a
      rest := by
  rw [searchFrom, Desc.setup_path, Desc.setup_nofollow, if_pos hmeets.head] at hsearch
  refine searchLoop_passes hstands ?_ hsearch hmeets
  intro a rest b inode target _ _ hmem hnode hlink htarget hcont
  obtain ⟨k, binode, hk, hhops, hb, -, hblink⟩ := hcont
  obtain ⟨r, hloop, rfl⟩ := map_eq_some_iff.mp htarget
  have hpos : k ≠ 0 := by
    rintro rfl
    cases hhops with
    | stay =>
      obtain rfl : inode = binode := Option.some.inj (hnode.symm.trans hb)
      rw [hblink] at hlink
      exact Bool.false_ne_true hlink
  obtain ⟨hret, hfound⟩ := linktargetLoop_resolves hcomplete hhops hb hblink (by omega)
    (fun hzero => absurd hzero hpos) hloop
  exact ⟨hret, hfound, hhops.mem hleads hmem⟩

theorem LeadsTo.answer (hleads : LeadsTo cfg h root path a)
    (hsearch : inodeSearchAux cfg h root fuel depth (.setup path nofollow) = some found) :
    found.ret = .ok ∧ found.desc.node = some a := by
  let leads : List UInt8 → Addr → Prop := fun path a => a ∈ root :: t.nodes ∧
    ∀ depth nofollow found, inodeSearchAux cfg h root fuel depth (.setup path nofollow) = some found →
      found.ret = .ok ∧ found.desc.node = some a
  refine (hleads leads fun path a inode hmeets hnode hmount => ?_).2 depth nofollow found hsearch
  refine ⟨hmeets.mem hstands fun _ _ h => h.1, fun depth nofollow found hsearch => ?_⟩
  cases depth with
  | zero => exact absurd hsearch.symm (some_ne_none found)
  | succ depth =>
    have hcomplete : Complete leads (inodeSearchAux cfg h root fuel depth) :=
      fun link found b hfound hb => hb.2 depth true found hfound
    exact (searchFrom_passes hstands hcomplete (fun _ _ h => h.1) hsearch hmeets).last

theorem complete_leadsTo (fuel depth : Nat) :
    Complete (LeadsTo cfg h root) (inodeSearchAux cfg h root fuel depth) :=
  fun _ _ _ hsearch hleads => hleads.answer hstands hsearch

theorem inodeSearchAux_called (hsearch : inodeSearchAux cfg h root fuel (depth + 1) (.setup path nofollow) = some found)
    (hopens : Opens cfg h root false path link) :
    ∃ found', inodeSearchAux cfg h root fuel depth (.setup link true) = some found' := by
  obtain ⟨a, rest, k, b, inode, hmeets, hrest, hk, hhops, hb, hlink⟩ := hopens
  obtain ⟨ainode, alink, ha, halink⟩ := hhops.isLink hb hlink
  have hcomplete := complete_leadsTo hstands fuel depth
  have hpasses := searchFrom_passes hstands hcomplete (fun _ _ => LeadsTo.mem hstands) hsearch hmeets
  obtain ⟨target, htarget, -⟩ :=
    hpasses.linktarget (hrest.resolve_right Bool.false_ne_true) ha halink
  obtain ⟨r, hloop, -⟩ := map_eq_some_iff.mp htarget
  exact linktargetLoop_searches hcomplete hhops hb hlink (by omega) hloop

theorem inodeSearchAux_eloop
    (hsearch : inodeSearchAux cfg h root fuel depth (.setup path nofollow) = some found)
    (hunresolved : Unresolved cfg h root false path) : found.ret = .error .eloop := by
  obtain ⟨a, rest, b, hmeets, hrest, hhops⟩ := hunresolved
  cases depth with
  | zero => exact absurd hsearch.symm (some_ne_none found)
  | succ depth =>
    obtain ⟨ainode, alink, ha, halink⟩ := hhops.isLink_of_pos
    have hcomplete := complete_leadsTo hstands fuel depth
    have hpasses := searchFrom_passes hstands hcomplete (fun _ _ => LeadsTo.mem hstands) hsearch hmeets
    obtain ⟨target, htarget, herror⟩ :=
      hpasses.linktarget (hrest.resolve_right Bool.false_ne_true) ha halink
    obtain ⟨r, hloop, rfl⟩ := map_eq_some_iff.mp htarget
    have hret := linktargetLoop_eloop hcomplete hhops (Nat.succ_pos _) (Nat.zero_add _) hloop
    exact herror .eloop hret

theorem not_loops_of_search
    (hsearch : inodeSearchAux cfg h root fuel depth (.setup path nofollow) = some found) :
    ¬CallGraph.Loops (Opens cfg h root false) path := by
  let returns : Nat → List UInt8 → Prop := fun depth path =>
    ∃ nofollow found, inodeSearchAux cfg h root fuel depth (.setup path nofollow) = some found
  have hcalled : ∀ depth p q, returns depth p → Opens cfg h root false p q →
      ∃ depth' < depth, returns depth' q := by
    rintro depth p q ⟨nofollow, found, hfound⟩ hopens
    cases depth with
    | zero => exact absurd hfound.symm (some_ne_none found)
    | succ depth =>
      obtain ⟨found', hfound'⟩ := inodeSearchAux_called hstands hfound hopens
      exact ⟨depth, Nat.lt_succ_self depth, true, found', hfound'⟩
  exact CallGraph.not_loops_of_returns hcalled ⟨nofollow, found, hsearch⟩

theorem search_of_not_loops {length : Nat}
    (hlinks : ∀ a ∈ root :: t.nodes, linkLength h a ≤ length)
    (hpath : path.length ≤ length) (hloops : ¬CallGraph.Loops (Opens cfg h root false) path)
    (hdepth : (root :: t.nodes).length < depth) (nofollow : Bool) :
    ∃ found, inodeSearchAux cfg h root (rounds (root :: t.nodes).length length) depth
        (.setup path nofollow) = some found ∧
      found.steps ≤ stepBound cfg.symloopMax (root :: t.nodes).length length depth := by
  let linkOf : Addr → List UInt8 := fun a => ((h a).bind Inode.link?).getD []
  let args : Finset (List UInt8) := ((root :: t.nodes).map linkOf).toFinset
  let returns : Nat → List UInt8 → Prop := fun depth path => path.length ≤ length → ∀ nofollow,
    ∃ found, inodeSearchAux cfg h root (rounds (root :: t.nodes).length length) depth
        (.setup path nofollow) = some found ∧
      found.steps ≤ stepBound cfg.symloopMax (root :: t.nodes).length length depth
  have hopened : ∀ p link, Opens cfg h root false p link → link.length ≤ length ∧ link ∈ args := by
    rintro p link ⟨a, rest, k, b, inode, hmeets, -, -, hhops, hb, hlink⟩
    have hmem := hhops.mem (fun _ _ => LeadsTo.mem hstands)
      (hmeets.mem hstands fun _ _ => LeadsTo.mem hstands)
    have hof : linkOf b = link := by
      simp [linkOf, hb, hlink]
    refine ⟨hof ▸ hlinks b hmem, mem_toFinset.mpr ?_⟩
    exact hof ▸ mem_map_of_mem hmem
  have hstep : ∀ depth p, (∀ q, Opens cfg h root false p q → returns depth q) →
      returns (depth + 1) p := by
    intro depth p hcalls hp nofollow
    have hsound : ∀ link found, inodeSearchAux cfg h root (rounds (root :: t.nodes).length length) depth
        (.setup link true) = some found →
        Reached h (root :: t.nodes) (LeadsTo cfg h root link) found := fun link found hfound =>
      (inodeSearchAux_reached hstands hfound).leadsTo
    have hfuel : (p.length + 1) * (t.nodes.length + 2) ≤ rounds (root :: t.nodes).length length :=
      Nat.mul_le_mul (by omega) (by rw [length_cons]; omega)
    obtain ⟨found, hfound, hsteps, -⟩ := searchFrom_reached hstands hsound
      (fun link hopens => hcalls link hopens (hopened p link hopens).1 true) hfuel nofollow
    refine ⟨found, hfound, hsteps.trans ?_⟩
    exact Nat.mul_le_mul (by omega) (by rw [length_cons]; omega)
  have hcard : (args : Set (List UInt8)).ncard < depth := by
    rw [Set.ncard_coe_finset]
    refine lt_of_le_of_lt (toFinset_card_le _) ?_
    rwa [length_map]
  exact CallGraph.returns_of_not_loops args.finite_toSet (fun p q hopens => (hopened p q hopens).2) hstep
    hloops hcard hpath nofollow

theorem followTerminal_last {first : Found} (hmeets : Meets cfg h root (LeadsTo cfg h root) path a [])
    (hlink : ∃ inode link, h a = some inode ∧ inode.link? = some link)
    (hfirst : inodeSearchAux cfg h root fuel depth (.setup path false) = some first)
    (hlast : followTerminal cfg h root fuel depth first = some found) :
    ∃ r, linktargetLoop cfg h (inodeSearchAux cfg h root fuel depth) (cfg.symloopMax + 1) 0 a
      ⟨.error .enoent, first.desc, 0⟩ = some r ∧ r.ret = found.ret := by
  obtain ⟨inode, link, ha, hlink⟩ := hlink
  obtain ⟨hret, hnode⟩ := (leadsTo_of_meets hmeets ha (isMountpt_of_link hlink)).answer hstands hfirst
  rw [followTerminal_link hret hnode ha hlink (inodeSearchAux_nofollow hfirst)] at hlast
  obtain ⟨r, hr, rfl⟩ := map_eq_some_iff.mp hlast
  obtain ⟨r, hloop, rfl⟩ := map_eq_some_iff.mp hr
  exact ⟨r, hloop, rfl⟩

theorem grounded_of_search (hpath : HasPath cfg path)
    (hsearch : inodeSearch cfg h root fuel depth (.setup path nofollow) = some found) :
    Grounded cfg h root (fullPath cfg path) nofollow := by
  obtain ⟨first, hfirst, hlast⟩ := inodeSearch_full hpath hsearch
  have hloops := not_loops_of_search hstands hfirst
  refine ⟨hloops, ?_⟩
  rintro link ⟨a, rest, k, b, inode, hmeets, hrest, hk, hhops, hb, hlink⟩
  by_cases hend : rest = []
  · subst hend
    obtain rfl : nofollow = false := by simpa using hrest
    obtain ⟨r, hloop, -⟩ := followTerminal_last hstands hmeets (hhops.isLink hb hlink) hfirst hlast
    obtain ⟨found', hfound'⟩ := linktargetLoop_searches (complete_leadsTo hstands fuel depth) hhops hb hlink
      (by omega) hloop
    exact not_loops_of_search hstands hfound'
  · have hopens : Opens cfg h root false (fullPath cfg path) link :=
      ⟨a, rest, k, b, inode, hmeets, .inl hend, hk, hhops, hb, hlink⟩
    exact fun h => hloops (h.of_call hopens)

theorem unresolved_eloop (hpath : HasPath cfg path)
    (hsearch : inodeSearch cfg h root fuel depth (.setup path nofollow) = some found)
    (hunresolved : Unresolved cfg h root (!nofollow) (fullPath cfg path)) :
    found.ret = .error .eloop := by
  obtain ⟨first, hfirst, hlast⟩ := inodeSearch_full hpath hsearch
  obtain ⟨a, rest, b, hmeets, hrest, hhops⟩ := hunresolved
  by_cases hend : rest = []
  · subst hend
    obtain rfl : nofollow = false := by simpa using hrest
    obtain ⟨r, hloop, hret⟩ := followTerminal_last hstands hmeets hhops.isLink_of_pos hfirst hlast
    rw [← hret]
    exact linktargetLoop_eloop (complete_leadsTo hstands fuel depth) hhops (Nat.succ_pos _)
      (Nat.zero_add _) hloop
  · have heloop := inodeSearchAux_eloop hstands hfirst ⟨a, rest, b, hmeets, .inl hend, hhops⟩
    rw [followTerminal, heloop] at hlast
    exact Option.some.inj hlast ▸ heloop

theorem followTerminal_returns {bound : Nat}
    (hsearch : inodeSearchAux cfg h root fuel depth (.setup path nofollow) = some found)
    (hreturns : ∀ link, Opens cfg h root (!nofollow) path link →
      ∃ r, inodeSearchAux cfg h root fuel depth (.setup link true) = some r ∧ r.steps ≤ bound) :
    ∃ r, followTerminal cfg h root fuel depth found = some r ∧
      r.steps ≤ found.steps + (cfg.symloopMax + 1) * (bound + 1) := by
  have hsound : ∀ link found, inodeSearchAux cfg h root fuel depth (.setup link true) = some found →
      Reached h (root :: t.nodes) (LeadsTo cfg h root link) found := fun link found hfound =>
    (inodeSearchAux_reached hstands hfound).leadsTo
  cases hret : found.ret with
  | error e => exact ⟨found, by simp [followTerminal, hret], Nat.le_add_right _ _⟩
  | ok =>
    obtain ⟨a, inode, hnode, -, ha, -, hgood⟩ := inodeSearchAux_reached hstands hsearch hret
    have hfollow := inodeSearchAux_nofollow hsearch
    cases hlink : inode.link? with
    | none => exact ⟨found, by simp [followTerminal, hret, hnode, ha, hlink], Nat.le_add_right _ _⟩
    | some link =>
      cases nofollow with
      | true =>
        exact ⟨found, by simp [followTerminal, hret, hnode, ha, hfollow], Nat.le_add_right _ _⟩
      | false =>
        have hmeets := hgood.resolve_left (by simp [isMountpt_of_link hlink])
        obtain ⟨r, hr, hsteps, -⟩ := inodeLinktarget_reached hsound ha hlink
          (fun k b binode blink hk hhops hb hblink => hreturns blink
            ⟨a, [], k, b, binode, hmeets, .inr rfl, hk, hhops, hb, hblink⟩) found.desc
        refine ⟨r.after found.steps, ?_, Nat.add_le_add_left hsteps _⟩
        rw [followTerminal_link hret hnode ha hlink hfollow, hr, map_some]

theorem inodeSearchBuffer_returns {length : Nat} (hlength : path.length ≤ length)
    (hplain : ∀ a rest inode, Meets cfg h root (LeadsTo cfg h root) path a rest → rest ≠ [] →
      h a = some inode → inode.link? = none) :
    ∃ found, inodeSearchBuffer cfg h root (rounds (root :: t.nodes).length length) (depth + 1)
      (.setup path nofollow) = some found := by
  rw [inodeSearchBuffer, searchFrom, Desc.setup_path]
  by_cases hhead : path.head? = some slash
  · obtain ⟨inode, hnode, -, hname, -, -⟩ := hstands.top
    have hcompare : inodeCompare cfg path inode.iName = 0 := by
      rw [hname]
      exact inodeCompare_root hhead
    have hm : (components (inodeNextname path)).length ≤ path.length := by
      rw [components_absolute hhead]
      exact components_length_le path
    have hfuel : (path.length + 1) * (t.nodes.length + 2) ≤ rounds (root :: t.nodes).length length :=
      Nat.mul_le_mul (by omega) (by rw [length_cons]; omega)
    rw [if_pos hhead]
    obtain ⟨found, hfound, -⟩ : ∃ found, searchLoop _ _ _ _ _ _ = some found ∧
        found.steps ≤ _ * (_ + 0) ∧ Reached _ _ _ found := searchLoop_reached hstands
      (fun a rest inode hmeets hrest _ ha hlink => by
        rw [hplain a rest inode hmeets hrest ha] at hlink
        cases hlink) hnode hcompare mem_cons_self (.root hhead) hm none none hfuel
    exact ⟨found, hfound⟩
  · rw [if_neg hhead]
    exact ⟨_, rfl⟩

theorem inodeSearch_of_kept {length : Nat} {first : Found} (hpath : HasPath cfg path)
    (hkept : Kept cfg h root path) (hlength : (fullPath cfg path).length ≤ length)
    (hfirst : inodeSearchAux cfg h root (rounds (root :: t.nodes).length length) (depth + 1)
      (.setup (fullPath cfg path) nofollow) = some first) :
    inodeSearch cfg h root (rounds (root :: t.nodes).length length) (depth + 1) (.setup path nofollow) =
      followTerminal cfg h root (rounds (root :: t.nodes).length length) (depth + 1) first := by
  rw [inodeSearch, Desc.setup_path]
  by_cases hhead : path.head? = some slash
  · rw [fullPath, if_pos hhead] at hfirst
    rw [if_pos hhead, hfirst]
    rfl
  have hmem := hpath.resolve_left hhead
  obtain ⟨found, hfound⟩ := inodeSearchBuffer_returns hstands hlength (hkept.resolve_left hhead)
  obtain rfl : found = first := Option.some.inj ((inodeSearchBuffer_le hfound).symm.trans hfirst)
  rw [fullPath, if_neg hhead] at hmem hfound
  rw [if_neg hhead]
  simp only [hmem, if_true]
  exact congrArg (Option.bind · _) hfound

theorem settles_of_grounded {length : Nat}
    (hlinks : ∀ a ∈ root :: t.nodes, linkLength h a ≤ length)
    (hlength : (fullPath cfg path).length ≤ length) (hkept : Kept cfg h root path)
    (hgrounded : HasPath cfg path → Grounded cfg h root (fullPath cfg path) nofollow) :
    Settles cfg h root (root :: t.nodes).length length path nofollow := by
  by_cases hpath : HasPath cfg path
  · obtain ⟨hloops, hopens⟩ := hgrounded hpath
    obtain ⟨first, hfirst, hsteps⟩ := search_of_not_loops hstands hlinks hlength hloops
      (Nat.lt_succ_self _) nofollow
    obtain ⟨found, hlast, hcost⟩ := followTerminal_returns hstands hfirst fun link hlink => by
      obtain ⟨a, rest, k, b, inode, hmeets, -, -, hhops, hb, hblink⟩ := id hlink
      have hmem := hhops.mem (fun _ _ => LeadsTo.mem hstands)
        (hmeets.mem hstands fun _ _ => LeadsTo.mem hstands)
      have hlen : link.length ≤ length := by
        simpa [linkLength, hb, hblink] using hlinks b hmem
      exact search_of_not_loops hstands hlinks hlen (hopens link hlink) (Nat.lt_succ_self _) true
    have hsearch : inodeSearch cfg h root (rounds (root :: t.nodes).length length)
        ((root :: t.nodes).length + 1) (.setup path nofollow) = some found := by
      rw [inodeSearch_of_kept hstands hpath hkept hlength hfirst, hlast]
    refine ⟨found, hsearch, ?_, fun _ => unresolved_eloop hstands hpath hsearch⟩
    exact (hcost.trans (Nat.add_le_add_right hsteps _)).trans (stepBound_succ _ _ _ _)
  · refine ⟨_, inodeSearch_nomem hpath, ?_, fun h => absurd h hpath⟩
    rw [stepBound]
    exact Nat.mul_pos (Nat.succ_pos _) (by omega)

end

def linkThroughItself : Heap :=
  Heap.put (Heap.put (fun _ => none) 0 { inodeAlloc [] with iChild := some 1 }) 1
    { inodeAlloc [97] with iType := .softlink [slash, 97, slash, 98] }

theorem stands_linkThroughItself :
    Stands ⟨false, 8, [], fun _ => true⟩ (fun _ => True) linkThroughItself 0 (node 1 [97] nil nil) :=
  ⟨⟨_, rfl, trivial, rfl, rfl, rfl⟩, ⟨⟨_, rfl, trivial, rfl, rfl, rfl⟩, trivial, trivial⟩, by decide,
    ⟨fun _ h => absurd h not_mem_nil, trivial, trivial⟩⟩

/-- The link `/l` leads to the directory `/d` with the node `/d/m`. -/
def linkToDirectory : Heap :=
  Heap.put (Heap.put (Heap.put (Heap.put (fun _ => none)
    0 { inodeAlloc [] with iChild := some 1 })
    1 { inodeAlloc [100] with iChild := some 2, iPeer := some 3 })
    2 (inodeAlloc [109]))
    3 { inodeAlloc [108] with iType := .softlink [slash, 100] }

theorem stands_linkToDirectory : Stands ⟨false, 8, [], fun _ => true⟩ (fun _ => True) linkToDirectory 0
    (node 1 [100] (node 2 [109] nil nil) (node 3 [108] nil nil)) := by
  refine ⟨⟨_, rfl, trivial, rfl, rfl, rfl⟩, ⟨⟨_, rfl, trivial, rfl, rfl, rfl⟩,
    ⟨⟨_, rfl, trivial, rfl, rfl, rfl⟩, trivial, trivial⟩,
    ⟨⟨_, rfl, trivial, rfl, rfl, rfl⟩, trivial, trivial⟩⟩, by decide, by decide, ⟨?_, trivial, trivial⟩,
    ?_, trivial, trivial⟩
  · exact fun _ h => absurd h not_mem_nil
  · exact fun _ h => absurd h not_mem_nil

end Nuttx.Fs
