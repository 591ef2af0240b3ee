import Nuttx.Fs.Inode.Proof.Names
import Nuttx.Library.SiblingTree

/-!
# A search walks along a forest

Where the nodes from a pointer on are those of a forest, the loop of `_inode_search` walks along it
with the names of the path.
-/

namespace Nuttx.Fs

open SiblingTree SiblingTree.Forest

variable {cfg : Config}

abbrev Tree := Forest Addr (List UInt8)

def Rep (ok : Inode → Prop) (h : Heap) : Tree → Prop
  | nil => True
  | node a k c r =>
    (∃ inode, h a = some inode ∧ ok inode ∧ inode.iName = k ∧ inode.iChild = c.first ∧
      inode.iPeer = r.first) ∧ Rep ok h c ∧ Rep ok h r

variable {t : Tree}

theorem Rep.congr {ok : Inode → Prop} {h h' : Heap} (hrep : Rep ok h t)
    (hsame : ∀ a ∈ t.nodes, h' a = h a) : Rep ok h' t := by
  induction t with
  | nil => trivial
  | node a k c r ihc ihr =>
    obtain ⟨⟨inode, hnode, hrest⟩, hc, hr⟩ := hrep
    refine ⟨⟨inode, ?_, hrest⟩, ihc hc fun b hb => ?_, ihr hr fun b hb => ?_⟩
    · rw [hsame a List.mem_cons_self, hnode]
    · exact hsame b (List.mem_cons_of_mem a (List.mem_append_left _ hb))
    · exact hsame b (List.mem_cons_of_mem a (List.mem_append_right _ hb))

theorem Rep.isSome {ok : Inode → Prop} {h : Heap} (hrep : Rep ok h t) {a : Addr}
    (ha : a ∈ t.nodes) : ∃ inode, h a = some inode ∧ ok inode := by
  induction t with
  | nil => exact absurd ha List.not_mem_nil
  | node b k c r ihc ihr =>
    obtain ⟨⟨inode, hnode, hok, -⟩, hc, hr⟩ := hrep
    rcases List.mem_cons.mp ha with rfl | ha
    · exact ⟨inode, hnode, hok⟩
    · exact (List.mem_append.mp ha).elim (ihc hc) (ihr hr)

@[simp] theorem Desc.setup_path (path : List UInt8) (nofollow : Bool) :
    (Desc.setup path nofollow).path = path := rfl

@[simp] theorem Desc.setup_nofollow (path : List UInt8) (nofollow : Bool) :
    (Desc.setup path nofollow).nofollow = nofollow := rfl

structure Plain (inode : Inode) : Prop where
  notMount : inode.isMountpt = false
  notLink : inode.link? = none
  unreferenced : inode.iCrefs = 0

structure Ends (nofollow : Bool) (stop : Stop Addr (List UInt8)) (found : Found) : Prop where
  ret : found.ret = if stop.found then .ok else .error .enoent
  node : found.desc.node = if stop.found then stop.sub.first else none
  peer : found.desc.peer = stop.left
  parent : found.desc.parent = stop.above
  nofollow : found.desc.nofollow = nofollow
  path : stop.found = false → AtName found.desc.path ∧ components found.desc.path = stop.rest

theorem Ends.after {nofollow : Bool} {stop : Stop Addr (List UInt8)} {found : Found} (n : Nat)
    (h : Ends nofollow stop found) : Ends nofollow stop (found.after n) :=
  ⟨h.ret, h.node, h.peer, h.parent, h.nofollow, h.path⟩

variable {h : Heap} {linktarget : Addr → Option Found} {nofollow : Bool}

theorem searchLoop_plain {a : Addr} {inode : Inode} (hnode : h a = some inode) (hplain : Plain inode)
    (fuel : Nat) (name : List UInt8) (left above : Option Addr) :
    searchLoop cfg h linktarget nofollow (fuel + 1) ⟨name, some a, left, above⟩ =
      if inodeCompare cfg name inode.iName < 0 then
        some (leave nofollow name none left above none (.error .enoent))
      else if inodeCompare cfg name inode.iName > 0 then
        (searchLoop cfg h linktarget nofollow fuel ⟨name, inode.iPeer, some a, above⟩).map (.after 1)
      else if inodeNextname name = [] then
        some (leave nofollow (inodeNextname name) (some a) left above (some (inodeNextname name)) .ok)
      else
        (searchLoop cfg h linktarget nofollow fuel
          ⟨inodeNextname name, inode.iChild, none, some a⟩).map (.after 1) := by
  simp [searchLoop, hnode, hplain.notMount, hplain.notLink]

variable (cfg nofollow) in
theorem searchLoop_walk (hrep : Rep Plain h t) {name : List UInt8} (hname : AtName name)
    (hne : name ≠ []) (left above : Option Addr) :
    ∃ found, Ends nofollow (walk (nameLt cfg) t (components name) left above) found ∧
      ∀ linktarget fuel, t.nodes.length < fuel →
        searchLoop cfg h linktarget nofollow fuel ⟨name, t.first, left, above⟩ = some found := by
  induction t generalizing name left above with
  | nil =>
    refine ⟨leave nofollow name none left above none (.error .enoent),
      ⟨rfl, rfl, rfl, rfl, rfl, fun _ => ⟨hname, rfl⟩⟩, fun linktarget fuel hfuel => ?_⟩
    obtain ⟨fuel, rfl⟩ := Nat.exists_eq_add_one_of_ne_zero (Nat.ne_zero_of_lt hfuel)
    rfl
  | node a k c r ihc ihr =>
    obtain ⟨⟨inode, hnode, hplain, hk, hchild, hpeer⟩, hc, hr⟩ := hrep
    have hcomps := components_cons hname hne
    obtain ⟨hless, hgreater⟩ := inodeCompare_spec cfg name inode.iName
    rw [hk] at hless hgreater
    -- every round needs one unit of fuel, and the rounds after it are those for `c` or for `r`
    have hround : ∀ fuel, (node a k c r).nodes.length < fuel →
        ∃ fuel', fuel = fuel' + 1 ∧ c.nodes.length < fuel' ∧ r.nodes.length < fuel' := by
      intro fuel hfuel
      rw [nodes, List.length_cons, List.length_append] at hfuel
      exact ⟨fuel - 1, by omega, by omega, by omega⟩
    rw [hcomps]
    rcases trichotomous_of (nameLt cfg) (name.takeWhile inName) k with hlt | heq | hgt
    · rw [walk_less hlt]
      refine ⟨leave nofollow name none left above none (.error .enoent),
        ⟨rfl, rfl, rfl, rfl, rfl, fun _ => ⟨hname, hcomps⟩⟩, fun linktarget fuel hfuel => ?_⟩
      obtain ⟨fuel, rfl, -, -⟩ := hround fuel hfuel
      rw [first, searchLoop_plain hnode hplain, hk, if_pos (hless.mpr hlt)]
    · have hnlt : ¬nameLt cfg (name.takeWhile inName) k := heq ▸ irrefl_of (nameLt cfg) k
      have hngt : ¬nameLt cfg k (name.takeWhile inName) := heq ▸ irrefl_of (nameLt cfg) k
      have hnext := atName_nextname name
      rw [heq]
      by_cases hend : inodeNextname name = []
      · rw [(components_eq_nil hnext).mpr hend, walk_found]
        refine ⟨leave nofollow (inodeNextname name) (some a) left above
            (some (inodeNextname name)) .ok,
          ⟨rfl, rfl, rfl, rfl, rfl, fun hfound => absurd hfound.symm Bool.false_ne_true⟩,
          fun linktarget fuel hfuel => ?_⟩
        obtain ⟨fuel, rfl, -, -⟩ := hround fuel hfuel
        rw [first, searchLoop_plain hnode hplain, hk, if_neg (hless.not.mpr hnlt),
          if_neg (hgreater.not.mpr hngt), if_pos hend]
      · have hrest : components (inodeNextname name) ≠ [] := (components_eq_nil hnext).not.mpr hend
        obtain ⟨found, hends, hloop⟩ := ihc hc hnext hend none (some a)
        rw [walk_below hrest]
        refine ⟨found.after 1, hends.after 1, fun linktarget fuel hfuel => ?_⟩
        obtain ⟨fuel, rfl, hfuel, -⟩ := hround fuel hfuel
        rw [first, searchLoop_plain hnode hplain, hk, if_neg (hless.not.mpr hnlt),
          if_neg (hgreater.not.mpr hngt), if_neg hend, hchild, hloop linktarget fuel hfuel, Option.map_some]
    · have hnlt : ¬nameLt cfg (name.takeWhile inName) k := asymm_of (nameLt cfg) hgt
      obtain ⟨found, hends, hloop⟩ := ihr hr hname hne (some a) above
      rw [walk_greater hgt, ← hcomps]
      refine ⟨found.after 1, hends.after 1, fun linktarget fuel hfuel => ?_⟩
      obtain ⟨fuel, rfl, -, hfuel⟩ := hround fuel hfuel
      rw [first, searchLoop_plain hnode hplain, hk, if_neg (hless.not.mpr hnlt),
        if_pos (hgreater.mpr hgt), hpeer, hloop linktarget fuel hfuel, Option.map_some]

structure Stands (cfg : Config) (ok : Inode → Prop) (h : Heap) (root : Addr) (t : Tree) : Prop where
  top : ∃ inode, h root = some inode ∧ ok inode ∧ inode.iName = [] ∧ inode.iChild = t.first ∧
    inode.iPeer = none
  rep : Rep ok h t
  nodup : (root :: t.nodes).Nodup
  ascending : t.Ascending (nameLt cfg)

theorem inodeCompare_root {path : List UInt8} (hpath : path.head? = some slash) :
    inodeCompare cfg path [] = 0 := by
  obtain ⟨rest, rfl⟩ := List.head?_eq_some_iff.mp hpath
  simp [inodeCompare]

theorem followTerminal_plain (hrep : Rep Plain h t) {p : List (List UInt8)}
    {left above : Option Addr} {found : Found}
    (hends : Ends nofollow (walk (nameLt cfg) t p left above) found) (root : Addr) (fuel depth : Nat) :
    followTerminal cfg h root fuel depth found = some found := by
  have hret := hends.ret
  have hnode := hends.node
  unfold followTerminal
  cases hfound : (walk (nameLt cfg) t p left above).found with
  | false =>
    rw [hfound] at hret
    rw [hret]
    rfl
  | true =>
    obtain ⟨a, k, c, r, hsub, hhas, -⟩ := walk_found_spec hfound
    obtain ⟨inode, ha, hplain⟩ := hrep.isSome hhas.mem_nodes
    rw [hfound, hsub] at hnode
    rw [hfound] at hret
    simp [hret, hnode, first, ha, hplain.notLink]

theorem inodeSearch_walk {root : Addr} (hstands : Stands cfg Plain h root t)
    {path : List UInt8} (hpath : Absolute path) (nofollow : Bool) :
    ∃ found, Ends nofollow (walk (nameLt cfg) t (components path) none (some root)) found ∧
      Returns (inodeSearch cfg h root · · (.setup path nofollow)) found := by
  obtain ⟨inode, hnode, hplain, hname, hchild, -⟩ := hstands.top
  have hcomps := components_absolute hpath.head
  have hnext := atName_nextname path
  have hne : inodeNextname path ≠ [] := by
    rw [Ne, ← components_eq_nil hnext, hcomps]
    exact hpath.nonroot
  obtain ⟨found, hends, hloop⟩ := searchLoop_walk cfg nofollow hstands.rep hnext
    hne none (some root)
  rw [hcomps] at hends
  refine ⟨found.after 1, hends.after 1, t.nodes.length + 2, fun fuel depth hfuel hdepth => ?_⟩
  obtain ⟨fuel, rfl⟩ := Nat.exists_eq_add_one_of_ne_zero (by omega : fuel ≠ 0)
  obtain ⟨depth, rfl⟩ := Nat.exists_eq_add_one_of_ne_zero (by omega : depth ≠ 0)
  have haux : inodeSearchAux cfg h root (fuel + 1) (depth + 1) (.setup path nofollow) =
      some (found.after 1) := by
    rw [inodeSearchAux, searchFrom, Desc.setup_path, Desc.setup_nofollow, if_pos hpath.head,
      searchLoop_plain hnode hplain, hname, inodeCompare_root hpath.head, if_neg (lt_irrefl 0),
      if_neg (lt_irrefl 0), if_neg hne, hchild, hloop _ _ (by omega), Option.map_some]
  beta_reduce
  rw [inodeSearch, Desc.setup_path, if_pos hpath.head, haux]
  exact followTerminal_plain hstands.rep (hends.after 1) root (fuel + 1) (depth + 1)

end Nuttx.Fs
