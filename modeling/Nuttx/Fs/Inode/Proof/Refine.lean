import Nuttx.Fs.Inode.Proof.Mutate
import Nuttx.Fs.Inode.Proof.Tree

/-!
# The tree of inodes refines a set of paths

After every run of `inode_reserve` and `inode_remove` there is a forest in ascending order below the
root, whose paths are those reserved and not removed since.
-/

open List Option

namespace Nuttx.Fs

open SiblingTree SiblingTree.Forest

variable {cfg : Config} {h : Heap} {root : Addr} {t : Tree} {path : List UInt8} {found : Found}

theorem Stands.hangs (hstands : Stands cfg Plain h root t) : Hangs h (.child root) t := by
  obtain ⟨inode, hnode, -, -, hchild, -⟩ := hstands.top
  exact ⟨⟨inode, hnode, hchild⟩, hstands.rep, hstands.nodup⟩

theorem Stands.change {h' : Heap} {t' : Tree} {new : List Addr} (hstands : Stands cfg Plain h root t)
    (hchange : Change h h' (.child root) t t' new) (hnodup : (root :: t'.nodes).Nodup)
    (hasc : t'.Ascending (nameLt cfg)) : Stands cfg Plain h' root t' := by
  obtain ⟨inode, hnode, hplain, hname, -, hpeer⟩ := hstands.top
  exact ⟨⟨_, hchange.owner inode hnode, Slot.put_plain _ _ hplain, hname, rfl, hpeer⟩, hchange.rep, hnodup,
    hasc⟩

variable {p : List (List UInt8)}

theorem search_found_iff (hstands : Stands cfg Plain h root t) {nofollow : Bool}
    (hends : Ends nofollow (walk (nameLt cfg) t p none (some root)) found) :
    found.ret = .ok ↔ p ∈ t.paths := by
  rw [hends.ret, ← walk_found_iff hstands.ascending]
  cases (walk (nameLt cfg) t p none (some root)).found with
  | false => exact iff_of_false Ret.noConfusion Bool.false_ne_true
  | true => exact iff_of_true rfl rfl

theorem located (hstands : Stands cfg Plain h root t) {nofollow : Bool}
    (hends : Ends nofollow (walk (nameLt cfg) t p none (some root)) found)
    (hfound : (walk (nameLt cfg) t p none (some root)).found = true) :
    Located h root p found.desc := by
  obtain ⟨top, htop, -, -, htopchild, -⟩ := hstands.top
  obtain ⟨a, k, c, r, hsub, hhas, -, -, habove⟩ := walk_found_spec hfound
  obtain ⟨s, hs, hangs, -⟩ := walk_change cfg (p := p) (rfl : Slot.ofStop none (some root) = _) hstands.hangs
  obtain ⟨b, hb, hleft⟩ := walk_left (p := p) hstands.rep
    (fun y hy => Child.first htop (htopchild.trans hy))
    (fun l (hl : none = some l) => absurd hl.symm (some_ne_none l))
  obtain ⟨inode, howner, hget⟩ := hangs.held
  have hnode : found.desc.node = some a := by
    rw [hends.node, hfound, hsub]
    rfl
  have hparent : found.desc.parent = some b := hends.parent.trans hb
  refine ⟨⟨a, hnode, (nodeAt_iff hstands p a).mpr (.inr hhas)⟩, ⟨b, hparent, ?_⟩, ?_⟩
  · rcases habove with ⟨hnil, hroot⟩ | ⟨d, hd, hhasd⟩
    · exact (nodeAt_iff hstands _ b).mpr (.inl ⟨hnil, Option.some.inj (hb.symm.trans hroot)⟩)
    · obtain rfl : d = b := Option.some.inj (hd.symm.trans hb)
      exact (nodeAt_iff hstands _ d).mpr (.inr hhasd)
  rw [hnode, hends.peer]
  rw [hsub] at hget
  cases hl : (walk (nameLt cfg) t p none (some root)).left with
  | none =>
    rw [hl, hb] at hs
    obtain rfl : Slot.child b = s := Option.some.inj hs
    exact .inl ⟨rfl, b, inode, hparent, howner, hget⟩
  | some l =>
    rw [hl] at hs
    obtain rfl : Slot.peer l = s := Option.some.inj hs
    exact .inr ⟨b, l, inode, hparent, rfl, hleft l hl, howner, hget⟩

theorem exists_map_some {l : List (Option Addr)} (h : ∀ block ∈ l, ∃ a, block = some a) :
    ∃ as : List Addr, l = as.map some := by
  induction l with
  | nil => exact ⟨[], rfl⟩
  | cons block l ih =>
    obtain ⟨a, rfl⟩ := h block mem_cons_self
    obtain ⟨as, rfl⟩ := ih fun b hb => h b (mem_cons_of_mem _ hb)
    exact ⟨a :: as, rfl⟩

theorem Supply.blocks {zalloc : List (Option Addr)} (hsupply : Supply h path zalloc) :
    ∃ as : List Addr, zalloc = as.map some ∧ as.Nodup ∧ (∀ a ∈ as, h a = none) ∧
      (components path).length ≤ as.length := by
  obtain ⟨as, rfl⟩ := exists_map_some fun block hblock =>
    (hsupply.fresh block hblock).imp fun _ ha => ha.1
  refine ⟨as, rfl, hsupply.nodup.of_map some, fun a ha => ?_, ?_⟩
  · obtain ⟨b, hb, hfree⟩ := hsupply.fresh (some a) (mem_map_of_mem ha)
    exact Option.some.inj hb ▸ hfree
  · simpa using hsupply.enough

section

variable (hstands : Stands cfg Plain h root t) (hpath : Absolute path)
include hstands hpath

theorem reserve_present (zalloc : List (Option Addr)) (hmem : components path ∈ t.paths) :
    Returns (inodeReserve cfg h root · · path zalloc) (h, .error .eexist, none) := by
  obtain ⟨found, hends, n, hsearch⟩ := inodeSearch_walk hstands hpath false
  have hne : path ≠ [] := by
    rintro rfl
    exact hpath.nonroot rfl
  refine ⟨n, fun fuel depth hfuel hdepth => ?_⟩
  simp [inodeReserve, hne, hsearch fuel depth hfuel hdepth, (search_found_iff hstands hends).mpr hmem]

theorem reserve_absent
    {zalloc : List (Option Addr)} (hsupply : Supply h path zalloc) (hmem : components path ∉ t.paths) :
    ∃ h' last t', Returns (inodeReserve cfg h root · · path zalloc) (h', .ok, some last) ∧
      Stands cfg Plain h' root t' ∧ t'.paths = addPath t.paths (components path) ∧
      t'.Has (components path) last := by
  obtain ⟨as, rfl, hnodup, hfresh, hlen⟩ := hsupply.blocks
  obtain ⟨found, hends, n, hsearch⟩ := inodeSearch_walk hstands hpath false
  have hnotfound : (walk (nameLt cfg) t (components path) none (some root)).found = false :=
    Bool.eq_false_iff.mpr ((walk_found_iff hstands.ascending).not.mpr hmem)
  obtain ⟨hname, hrest⟩ := hends.path hnotfound
  obtain ⟨hsuffix, hnil⟩ := walk_rest (nameLt cfg) t (components path) none (some root)
  obtain ⟨s, hs, hangs, hlift⟩ := walk_change cfg (p := components path)
    (rfl : Slot.ofStop none (some root) = _) hstands.hangs
  have hnamene : found.desc.path ≠ [] := by
    rw [Ne, ← components_eq_nil hname, hrest]
    exact fun h => hpath.nonroot (hnil h)
  have hlen' : (components found.desc.path).length ≤ as.length := by
    rw [hrest]
    exact hsuffix.length_le.trans hlen
  rw [← hends.peer, ← hends.parent] at hs
  obtain ⟨h', last, hloop, hhas, hchange⟩ :=
    reserveLoop_grow hname hnamene hs hangs hnodup hfresh hlen'
  have hnew : ∀ b ∈ as, b ∉ root :: t.nodes := fun b hb =>
    not_mem_cons_of_ne_of_not_mem (hstands.hangs.fresh (hfresh b hb)).1
      (hstands.hangs.fresh (hfresh b hb)).2
  -- the new forest is the one with the path inserted
  obtain ⟨hfound0, hrest0, hsub0⟩ := walk_sub (nameLt cfg) t (components path) none (some root)
  have hchange' := hlift h' _ as hnew hchange
  rw [hrest] at hchange' hhas
  have hhas' := has_replace hhas
  rw [hrest0, hsub0] at hchange' hhas'
  rw [hfound0] at hnotfound
  refine ⟨h', last, insert (nameLt cfg) t (components path) as, ⟨n, fun fuel depth hfuel hdepth => ?_⟩,
    hstands.change hchange' ?_ (ascending_insert as hnotfound hstands.ascending), ?_, hhas'⟩
  · have hne : path ≠ [] := by
      rintro rfl
      exact hpath.nonroot rfl
    have hret : found.ret = .error .enoent := by
      rw [hends.ret, hfound0, hnotfound]
      rfl
    simp [inodeReserve, hne, hsearch fuel depth hfuel hdepth, hret, hloop]
  · refine ((nodes_insert t (components path) as).cons root).nodup_iff.mpr ?_
    have htake : ∀ b ∈ as.take (walk (nameLt cfg) t (components path) none none).rest.length,
        b ∉ root :: t.nodes := fun b hb => hnew b (mem_of_mem_take hb)
    refine (perm_middle.nodup_iff).mp (nodup_append.mpr ⟨hnodup.take, hstands.nodup, ?_⟩)
    exact fun b hb d hd hbd => htake b hb (hbd ▸ hd)
  · ext q
    exact mem_paths_insert hpath.nonroot hnotfound hlen q

theorem remove_absent (hmem : components path ∉ t.paths) :
    Returns (inodeRemove cfg h root · · path) (h, .error .enoent) := by
  obtain ⟨found, hends, n, hsearch⟩ := inodeSearch_walk hstands hpath true
  have hnotfound : (walk (nameLt cfg) t (components path) none (some root)).found = false :=
    Bool.eq_false_iff.mpr ((walk_found_iff hstands.ascending).not.mpr hmem)
  have hret : found.ret = .error .enoent := by
    rw [hends.ret, hnotfound]
    rfl
  refine ⟨n, fun fuel depth hfuel hdepth => ?_⟩
  simp [inodeRemove, inodeUnlink, hsearch fuel depth hfuel hdepth, hret]

end

theorem inodeUnlink_found {fuel depth : Nat} {a : Addr} {inode : Inode} {s : Slot}
    (hsearch : inodeSearch cfg h root fuel depth (.setup path true) = some found)
    (hret : found.ret = .ok) (hnode : found.desc.node = some a) (ha : h a = some inode)
    (hs : Slot.ofStop found.desc.peer found.desc.parent = some s) :
    inodeUnlink cfg h root fuel depth path = (h.write s inode.iPeer).bind fun h =>
      (h.setPeer a none).bind fun h => some (h, some a) := by
  cases hpeer : found.desc.peer with
  | some l =>
    rw [hpeer] at hs
    obtain rfl : Slot.peer l = s := Option.some.inj hs
    simp [inodeUnlink, hsearch, hret, hnode, ha, hpeer, Heap.write]
  | none =>
    rw [hpeer] at hs
    cases hparent : found.desc.parent with
    | none =>
      rw [hparent] at hs
      exact absurd hs.symm (some_ne_none s)
    | some b =>
      rw [hparent] at hs
      obtain rfl : Slot.child b = s := Option.some.inj hs
      simp [inodeUnlink, hsearch, hret, hnode, ha, hpeer, hparent, Heap.write]

theorem remove_present (hstands : Stands cfg Plain h root t) (hpath : Absolute path)
    (hmem : components path ∈ t.paths) :
    ∃ h' t', Returns (inodeRemove cfg h root · · path) (h', .ok) ∧ Stands cfg Plain h' root t' ∧
      t'.paths = removePath t.paths (components path) := by
  obtain ⟨found, hends, n, hsearch⟩ := inodeSearch_walk hstands hpath true
  have hfound : (walk (nameLt cfg) t (components path) none (some root)).found = true :=
    (walk_found_iff hstands.ascending).mpr hmem
  have hret : found.ret = .ok := (search_found_iff hstands hends).mpr hmem
  obtain ⟨a, k, c, r, hsub, -⟩ := walk_found_spec hfound
  obtain ⟨s, hs, hangs, hlift⟩ := walk_change cfg (p := components path)
    (rfl : Slot.ofStop none (some root) = _) hstands.hangs
  have hnode : found.desc.node = some a := by
    rw [hends.node, hfound, hsub]
    rfl
  rw [← hends.peer, ← hends.parent] at hs
  rw [hsub] at hangs
  obtain ⟨⟨inode, ha, -, -, -, hpeer⟩, -, -⟩ := hangs.rep
  obtain ⟨h1, h2, inode', hwrite, hset, ha', hcrefs, hfree, hchange⟩ := unlink_free hangs
  obtain ⟨hfound0, -, hsub0⟩ := walk_sub (nameLt cfg) t (components path) none (some root)
  have herase : erase (nameLt cfg) t (components path) = replace (nameLt cfg) t (components path) r := by
    rw [erase, ← hsub0, hsub, peer]
  rw [← hsub] at hchange
  have hchange' := hlift _ _ [] (fun b hb => absurd hb not_mem_nil) hchange
  rw [← herase] at hchange'
  rw [hfound0] at hfound
  refine ⟨_, erase (nameLt cfg) t (components path), ⟨max n (c.nodes.length + 2), ?_⟩,
    hstands.change hchange' ?_ (ascending_erase hfound hstands.ascending), ?_⟩
  · intro fuel depth hfuel hdepth
    have hunlink := inodeUnlink_found (hsearch fuel depth (by omega) (by omega)) hret hnode ha hs
    rw [hpeer, hwrite, bind_some, hset, bind_some] at hunlink
    simp [inodeRemove, hunlink, ha', hcrefs, hfree fuel (by omega)]
  · obtain ⟨gone, hperm⟩ := nodes_erase (nameLt cfg) t (components path)
    refine ((hperm.cons root).nodup_iff.mp hstands.nodup).sublist ?_
    exact (sublist_append_right gone _).cons_cons root
  · ext q
    exact mem_paths_erase hfound hstands.ascending q

theorem addPath_of_mem (hmem : p ∈ t.paths) : addPath t.paths p = t.paths := by
  ext q
  exact ⟨fun hq => hq.elim id fun hnew => mem_paths_of_isPrefix hmem hnew.1 hnew.2, .inl⟩

theorem removePath_of_notMem (hp : p ≠ []) (hmem : p ∉ t.paths) :
    removePath t.paths p = t.paths := by
  ext q
  exact ⟨And.left, fun hq => ⟨hq, fun hpre => hmem (mem_paths_of_isPrefix hq hp hpre)⟩⟩

theorem refines (hstands : Stands cfg Plain h root t) : Refines cfg h root t.paths where
  same := pathsOf_eq hstands
  ascending := by
    intro p a b inode inode' hp ha hpeer hb
    rcases (nodeAt_iff hstands p a).mp hp with ⟨-, rfl⟩ | hhas
    · obtain ⟨top, htop, -, -, -, hnone⟩ := hstands.top
      obtain rfl : top = inode := Option.some.inj (htop.symm.trans ha)
      exact absurd (hpeer.symm.trans hnone) (some_ne_none b)
    · exact nameLt_peer hstands.rep hstands.ascending hhas.mem_nodes ha hpeer hb
  search := by
    intro path nofollow hpath
    obtain ⟨found, hends, hret⟩ := inodeSearch_walk hstands hpath nofollow
    have hiff := search_found_iff hstands hends
    refine ⟨found, hret, hiff, fun hok => located hstands hends ?_⟩
    exact (walk_found_iff hstands.ascending).mpr (hiff.mp hok)
  reserve := by
    intro path zalloc hpath hsupply
    by_cases hmem : components path ∈ t.paths
    · exact ⟨h, _, none, reserve_present hstands hpath zalloc hmem, fun _ => ⟨rfl, rfl⟩,
        fun hnot => absurd hmem hnot⟩
    obtain ⟨h', last, t', hret, hstands', hpaths, hhas⟩ := reserve_absent hstands hpath hsupply hmem
    refine ⟨h', .ok, some last, hret, fun hin => absurd hin hmem, fun _ => ⟨rfl, ?_, last, rfl, ?_⟩⟩
    · rw [pathsOf_eq hstands', hpaths]
    · exact (nodeAt_iff hstands' _ _).mpr (.inr hhas)
  remove := by
    intro path hpath
    by_cases hmem : components path ∈ t.paths
    · obtain ⟨h', t', hret, hstands', hpaths⟩ := remove_present hstands hpath hmem
      refine ⟨h', .ok, hret, fun _ => rfl, fun hnot => absurd hmem hnot, ?_⟩
      rw [pathsOf_eq hstands', hpaths]
    · refine ⟨h, _, remove_absent hstands hpath hmem, fun hin => absurd hin hmem, fun _ => rfl, ?_⟩
      rw [pathsOf_eq hstands, removePath_of_notMem hpath.nonroot hmem]

theorem Returns.unique {α : Type} {call : Nat → Nat → Option α} {r r' : α} (hr : Returns call r)
    (hr' : Returns call r') : r = r' := by
  obtain ⟨n, hn⟩ := hr
  obtain ⟨m, hm⟩ := hr'
  have hleft := hn (max n m) (max n m) (by omega) (by omega)
  have hright := hm (max n m) (max n m) (by omega) (by omega)
  exact Option.some.inj (hleft.symm.trans hright)

theorem run_stands {ops : List Op} (hrun : Run cfg root ops h) :
    ∃ t, Stands cfg Plain h root t ∧ t.paths = pathsAfter ops := by
  induction hrun with
  | start => exact ⟨nil, ⟨⟨_, Heap.put_self _ _ _, ⟨rfl, rfl, rfl⟩, rfl, rfl, rfl⟩,
    trivial, nodup_singleton root, trivial⟩, paths_nil⟩
  | @reserve ops h h' path zalloc ret inode hrun hpath hsupply hret ih =>
    obtain ⟨t, hstands, hpaths⟩ := ih
    rw [pathsAfter, foldl_append, ← pathsAfter, ← hpaths]
    by_cases hmem : components path ∈ t.paths
    · have heq := hret.unique (reserve_present hstands hpath _ hmem)
      rw [Prod.mk.injEq] at heq
      rw [heq.1]
      exact ⟨t, hstands, (addPath_of_mem hmem).symm⟩
    · obtain ⟨_, last, t', hret', hstands', hpaths', -⟩ :=
        reserve_absent hstands hpath hsupply hmem
      have heq := hret.unique hret'
      rw [Prod.mk.injEq] at heq
      rw [heq.1]
      exact ⟨t', hstands', hpaths'⟩
  | @remove ops h h' path ret hrun hpath hret ih =>
    obtain ⟨t, hstands, hpaths⟩ := ih
    rw [pathsAfter, foldl_append, ← pathsAfter, ← hpaths]
    by_cases hmem : components path ∈ t.paths
    · obtain ⟨_, t', hret', hstands', hpaths'⟩ := remove_present hstands hpath hmem
      have heq := hret.unique hret'
      rw [Prod.mk.injEq] at heq
      rw [heq.1]
      exact ⟨t', hstands', hpaths'⟩
    · have heq := hret.unique (remove_absent hstands hpath hmem)
      rw [Prod.mk.injEq] at heq
      rw [heq.1]
      exact ⟨t, hstands, (removePath_of_notMem hpath.nonroot hmem).symm⟩

/-- **The tree is a set of paths.** After any run of reservations and removals, a search finds the paths
that the operations leave in the set, and the next operation changes the tree as it changes the set. -/
theorem inode_tree_refines_paths {ops : List Op} (hrun : Run cfg root ops h) :
    Refines cfg h root (pathsAfter ops) := by
  obtain ⟨t, hstands, hpaths⟩ := run_stands hrun
  rw [← hpaths]
  exact refines hstands

theorem inode_tree_refines_paths_short :
    ∃ h, Run ⟨false, 8, [], fun _ => true⟩ 0 [.reserve [slash, 97, slash, 98] [some 1, some 2],
        .remove [slash, 97]] h ∧
      Refines ⟨false, 8, [], fun _ => true⟩ h 0 (pathsAfter
        [.reserve [slash, 97, slash, 98] [some 1, some 2], .remove [slash, 97]]) := by
  have hstart : Run ⟨false, 8, [], fun _ => true⟩ 0 [] (rootHeap 0) := .start
  have hlong : Absolute [slash, 97, slash, 98] := ⟨rfl, by decide⟩
  have hshort : Absolute [slash, 97] := ⟨rfl, by decide⟩
  have hsupply : Supply (rootHeap 0) [slash, 97, slash, 98] [some 1, some 2] :=
    ⟨by decide, by simp [rootHeap, Heap.put], by decide⟩
  obtain ⟨h1, ret1, inode, hret1, -⟩ :=
    (inode_tree_refines_paths hstart).reserve _ _ hlong hsupply
  have hmid := hstart.reserve hlong hsupply hret1
  obtain ⟨h2, ret2, hret2, -⟩ := (inode_tree_refines_paths hmid).remove _ hshort
  exact ⟨h2, hmid.remove hshort hret2, inode_tree_refines_paths (hmid.remove hshort hret2)⟩

end Nuttx.Fs
