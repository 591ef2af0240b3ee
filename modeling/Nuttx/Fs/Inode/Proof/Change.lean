import Nuttx.Fs.Inode.Proof.Search

/-!
# Changing a forest through one of its pointers

`inode_insert` and `inode_unlink` write one pointer, which a search has found: the `i_peer` of the
node left of the place or, if there is none, the `i_child` of the node above.
-/

open List

namespace Nuttx.Fs

open SiblingTree SiblingTree.Forest

variable {cfg : Config}

inductive Slot
  | child (a : Addr)
  | peer (a : Addr)

namespace Slot

def owner : Slot → Addr
  | child a => a
  | peer a => a

def get : Slot → Inode → Option Addr
  | child _, inode => inode.iChild
  | peer _, inode => inode.iPeer

def put : Slot → Inode → Option Addr → Inode
  | child _, inode, v => { inode with iChild := v }
  | peer _, inode, v => { inode with iPeer := v }

def ofStop (left above : Option Addr) : Option Slot :=
  match left with
  | some l => some (peer l)
  | none => above.map child

theorem put_get (s : Slot) {inode : Inode} {v : Option Addr} (h : s.get inode = v) :
    s.put inode v = inode := by
  cases s with
  | child a => cases h; rfl
  | peer a => cases h; rfl

theorem put_plain (s : Slot) {inode : Inode} (v : Option Addr) (h : Plain inode) :
    Plain (s.put inode v) := by
  cases s with
  | child a | peer a => exact ⟨h.notMount, h.notLink, h.unreferenced⟩

end Slot

structure Hangs (h : Heap) (s : Slot) (t : Tree) : Prop where
  held : ∃ inode, h s.owner = some inode ∧ s.get inode = t.first
  rep : Rep Plain h t
  nodup : (s.owner :: t.nodes).Nodup

theorem Hangs.fresh {h : Heap} {s : Slot} {t : Tree} (hangs : Hangs h s t) {a : Addr}
    (hfree : h a = none) : a ≠ s.owner ∧ a ∉ t.nodes := by
  refine ⟨?_, fun hmem => ?_⟩
  · rintro rfl
    obtain ⟨inode, howner, -⟩ := hangs.held
    exact Option.some_ne_none inode (howner.symm.trans hfree)
  · obtain ⟨inode, hnode, -⟩ := hangs.rep.isSome hmem
    exact Option.some_ne_none inode (hnode.symm.trans hfree)

/-- From `h` to `h'` the forest at `s` becomes `t'`, where only `s`, nodes of `t` and the nodes `new`
are written. -/
structure Change (h h' : Heap) (s : Slot) (t t' : Tree) (new : List Addr) : Prop where
  owner : ∀ inode, h s.owner = some inode → h' s.owner = some (s.put inode t'.first)
  rep : Rep Plain h' t'
  frame : ∀ b, b ≠ s.owner → b ∉ t.nodes → b ∉ new → h' b = h b

theorem nodup_node {o a : Addr} {k : List UInt8} {c r : Tree} (h : (o :: (node a k c r).nodes).Nodup) :
    o ≠ a ∧ o ∉ c.nodes ∧ o ∉ r.nodes ∧ a ∉ c.nodes ∧ a ∉ r.nodes ∧ c.nodes.Nodup ∧ r.nodes.Nodup ∧
      ∀ b ∈ c.nodes, b ∉ r.nodes := by
  simp only [nodes, nodup_cons, mem_cons, mem_append, nodup_append] at h
  grind

variable {h h' : Heap} {s : Slot} {a : Addr} {k : List UInt8} {c r : Tree} {new : List Addr}

section

variable (hangs : Hangs h s (node a k c r))
include hangs

theorem Hangs.peer : Hangs h (.peer a) r := by
  obtain ⟨⟨inode, hnode, -, -, -, hpeer⟩, -, hr⟩ := hangs.rep
  obtain ⟨-, -, -, -, ha, -, hnodup, -⟩ := nodup_node hangs.nodup
  exact ⟨⟨inode, hnode, hpeer⟩, hr, nodup_cons.mpr ⟨ha, hnodup⟩⟩

theorem Hangs.child : Hangs h (.child a) c := by
  obtain ⟨⟨inode, hnode, -, -, hchild, -⟩, hc, -⟩ := hangs.rep
  obtain ⟨-, -, -, ha, -, hnodup, -, -⟩ := nodup_node hangs.nodup
  exact ⟨⟨inode, hnode, hchild⟩, hc, nodup_cons.mpr ⟨ha, hnodup⟩⟩

theorem Change.peer (hnew : ∀ b ∈ new, b ∉ s.owner :: (node a k c r).nodes) {r' : Tree}
    (hchange : Change h h' (.peer a) r r' new) :
    Change h h' s (node a k c r) (node a k c r') new := by
  obtain ⟨⟨inode, hnode, hplain, hk, hchild, hpeer⟩, hc, hr⟩ := hangs.rep
  obtain ⟨hoa, hoc, hor, hac, har, -, -, hcr⟩ := nodup_node hangs.nodup
  have ha : h' a = some ((Slot.peer a).put inode r'.first) := hchange.owner inode hnode
  refine ⟨fun o ho => ?_, ⟨⟨_, ha, Slot.put_plain _ _ hplain, hk, hchild, rfl⟩, ?_, hchange.rep⟩, ?_⟩
  · obtain ⟨o', ho', hget⟩ := hangs.held
    obtain rfl : o' = o := Option.some.inj (ho'.symm.trans ho)
    rw [hchange.frame s.owner hoa hor fun hmem => hnew _ hmem mem_cons_self, ho]
    exact congrArg some (s.put_get hget).symm
  · refine hc.congr fun b hb => ?_
    refine hchange.frame b (ne_of_mem_of_not_mem hb hac) (hcr b hb) fun hmem => hnew b hmem ?_
    exact mem_cons_of_mem _ (mem_cons_of_mem _ (mem_append_left _ hb))
  · intro b hbo hb hbnew
    rw [nodes, mem_cons, mem_append, not_or, not_or] at hb
    exact hchange.frame b hb.1 hb.2.2 hbnew

theorem Change.child (hnew : ∀ b ∈ new, b ∉ s.owner :: (node a k c r).nodes) {c' : Tree}
    (hchange : Change h h' (.child a) c c' new) :
    Change h h' s (node a k c r) (node a k c' r) new := by
  obtain ⟨⟨inode, hnode, hplain, hk, hchild, hpeer⟩, hc, hr⟩ := hangs.rep
  obtain ⟨hoa, hoc, hor, hac, har, -, -, hcr⟩ := nodup_node hangs.nodup
  have ha : h' a = some ((Slot.child a).put inode c'.first) := hchange.owner inode hnode
  refine ⟨fun o ho => ?_, ⟨⟨_, ha, Slot.put_plain _ _ hplain, hk, rfl, hpeer⟩, hchange.rep, ?_⟩, ?_⟩
  · obtain ⟨o', ho', hget⟩ := hangs.held
    obtain rfl : o' = o := Option.some.inj (ho'.symm.trans ho)
    rw [hchange.frame s.owner hoa hoc fun hmem => hnew _ hmem mem_cons_self, ho]
    exact congrArg some (s.put_get hget).symm
  · refine hr.congr fun b hb => ?_
    refine hchange.frame b (ne_of_mem_of_not_mem hb har) (fun hbc => hcr b hbc hb) fun hmem => ?_
    exact hnew b hmem (mem_cons_of_mem _ (mem_cons_of_mem _ (mem_append_right _ hb)))
  · intro b hbo hb hbnew
    rw [nodes, mem_cons, mem_append, not_or, not_or] at hb
    exact hchange.frame b hb.1 hb.2.1 hbnew

end

variable (cfg) in
theorem walk_change {t : Tree} {p : List (List UInt8)} {left above : Option Addr}
    (hs : Slot.ofStop left above = some s) (hangs : Hangs h s t) :
    ∃ s', Slot.ofStop (walk (nameLt cfg) t p left above).left (walk (nameLt cfg) t p left above).above =
        some s' ∧
      Hangs h s' (walk (nameLt cfg) t p left above).sub ∧
      ∀ h' u new, (∀ b ∈ new, b ∉ s.owner :: t.nodes) →
        Change h h' s' (walk (nameLt cfg) t p left above).sub u new →
        Change h h' s t (replace (nameLt cfg) t p u) new := by
  induction t, p using walk_induction (nameLt cfg) generalizing left above s with
  | nil p | stay a k c r => exact ⟨s, hs, hangs, fun h' u new _ hchange => hchange⟩
  | less a k c r k' p hlt =>
    rw [walk_less hlt]
    refine ⟨s, hs, hangs, fun h' u new _ hchange => ?_⟩
    rw [replace_less hlt]
    exact hchange
  | greater a k c r k' p hgt ih =>
    rw [walk_greater hgt]
    obtain ⟨s', hs', hangs', hlift⟩ := ih (rfl : Slot.ofStop (some a) above = _) hangs.peer
    refine ⟨s', hs', hangs', fun h' u new hnew hchange => ?_⟩
    rw [replace_greater hgt]
    refine Change.peer hangs hnew (hlift h' u new (fun b hb hmem => hnew b hb ?_) hchange)
    rw [nodes]
    grind [Slot.owner]
  | found a k c r =>
    rw [walk_found]
    refine ⟨s, hs, hangs, fun h' u new _ hchange => ?_⟩
    rw [replace_found]
    exact hchange
  | below a k c r p hp ih =>
    rw [walk_below hp]
    obtain ⟨s', hs', hangs', hlift⟩ := ih (rfl : Slot.ofStop none (some a) = _) hangs.child
    refine ⟨s', hs', hangs', fun h' u new hnew hchange => ?_⟩
    rw [replace_below hp]
    refine Change.child hangs hnew (hlift h' u new (fun b hb hmem => hnew b hb ?_) hchange)
    rw [nodes]
    grind [Slot.owner]

end Nuttx.Fs
