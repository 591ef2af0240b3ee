import Nuttx.Fs.Inode.Proof.Change

/-!
# The paths of a forest in the heap

A path leads from the root to a node through the pointers of the heap if and only if it leads there in
the forest below the root.
-/

namespace Nuttx.Fs

open SiblingTree SiblingTree.Forest

variable {cfg : Config} {ok : Inode → Prop} {h : Heap} {t c : Tree}

variable {a b : Addr} {k : List UInt8} {inode inode' : Inode} {p : List (List UInt8)}

theorem child_of_has (hrep : Rep ok h c) (hfirst : ∀ b, c.first = some b → Child h a b)
    (hhas : c.Has [k] b) : Child h a b := by
  induction c with
  | nil => exact hhas.elim
  | node x k' c' r _ ihr =>
    obtain ⟨⟨inode, hnode, -, -, -, hpeer⟩, -, hr⟩ := hrep
    have hx : Child h a x := hfirst x rfl
    rcases hhas with ⟨-, rfl⟩ | ⟨q, hq, hhas⟩ | hhas
    · exact hx
    · obtain ⟨-, rfl⟩ := List.cons.inj hq
      exact absurd ⟨b, hhas⟩ (nil_notMem_paths c')
    · exact ihr hr (fun y hy => .peer hx hnode (hpeer.trans hy)) hhas

theorem has_first (hrep : Rep ok h c) (hfirst : c.first = some b)
    (hnode : h b = some inode) : c.Has [inode.iName] b := by
  cases c with
  | nil => exact absurd hfirst.symm (Option.some_ne_none b)
  | node x k c' r =>
    obtain rfl : x = b := Option.some.inj hfirst
    obtain ⟨⟨inode', hnode', -, hk, -⟩, -, -⟩ := hrep
    obtain rfl : inode' = inode := Option.some.inj (hnode'.symm.trans hnode)
    exact .inl ⟨by rw [hk], rfl⟩

theorem name_of_has (hrep : Rep ok h c) (hhas : c.Has [k] a) :
    ∃ inode, h a = some inode ∧ inode.iName = k := by
  induction c with
  | nil => exact hhas.elim
  | node x k' c' r _ ihr =>
    obtain ⟨⟨inode, hnode, -, hk, -⟩, -, hr⟩ := hrep
    rcases hhas with ⟨hp, rfl⟩ | ⟨q, hq, hhas⟩ | hhas
    · exact ⟨inode, hnode, hk.trans (List.cons.inj hp).1.symm⟩
    · obtain ⟨-, rfl⟩ := List.cons.inj hq
      exact absurd ⟨a, hhas⟩ (nil_notMem_paths c')
    · exact ihr hr hhas

theorem has_peer (hrep : Rep ok h c) (hhas : c.Has [k] a)
    (ha : h a = some inode) (hpeer : inode.iPeer = some b)
    (hb : h b = some inode') : c.Has [inode'.iName] b := by
  induction c with
  | nil => exact hhas.elim
  | node x k' c' r _ ihr =>
    obtain ⟨⟨inode0, hnode, -, -, -, hpeer0⟩, -, hr⟩ := hrep
    rcases hhas with ⟨-, rfl⟩ | ⟨q, hq, hhas⟩ | hhas
    · obtain rfl : inode0 = inode := Option.some.inj (hnode.symm.trans ha)
      exact .inr (.inr (has_first hr (hpeer0.symm.trans hpeer) hb))
    · obtain ⟨-, rfl⟩ := List.cons.inj hq
      exact absurd ⟨a, hhas⟩ (nil_notMem_paths c')
    · exact .inr (.inr (ihr hr hhas))

theorem has_of_child (ha : h a = some inode) (hrep : Rep ok h c)
    (hchild : inode.iChild = c.first) (hb : Child h a b) (hnode : h b = some inode') :
    c.Has [inode'.iName] b := by
  induction hb generalizing inode' with
  | first ha' hfirst =>
    obtain rfl := Option.some.inj (ha'.symm.trans ha)
    exact has_first hrep (hchild.symm.trans hfirst) hnode
  | peer _ hb' hpeer ih => exact has_peer hrep (ih hb') hb' hpeer hnode

theorem has_below (hrep : Rep ok h t) (hhas : t.Has p a) :
    ∃ c inode, h a = some inode ∧ inode.iChild = c.first ∧ Rep ok h c ∧
      ∀ q b, c.Has q b → t.Has (p ++ q) b := by
  induction t generalizing p with
  | nil => exact hhas.elim
  | node x k c r ihc ihr =>
    obtain ⟨⟨inode, hnode, -, -, hchild, -⟩, hc, hr⟩ := hrep
    rcases hhas with ⟨rfl, rfl⟩ | ⟨q, rfl, hhas⟩ | hhas
    · exact ⟨c, inode, hnode, hchild, hc, fun q b hq => .inr (.inl ⟨q, rfl, hq⟩)⟩
    · obtain ⟨c', inode', ha, hfirst, hrep', hcont⟩ := ihc hc hhas
      exact ⟨c', inode', ha, hfirst, hrep', fun q' b hq' => .inr (.inl ⟨q ++ q', rfl, hcont q' b hq'⟩)⟩
    · obtain ⟨c', inode', ha, hfirst, hrep', hcont⟩ := ihr hr hhas
      exact ⟨c', inode', ha, hfirst, hrep', fun q b hq => .inr (.inr (hcont q b hq))⟩

theorem nodeAt_of_has {root : Addr} {q : List (List UInt8)} (ha : NodeAt h root p a)
    (hrep : Rep ok h t) (hchildren : ∀ k b, t.Has [k] b → Child h a b) (hhas : t.Has q b) :
    NodeAt h root (p ++ q) b := by
  induction t generalizing p q a with
  | nil => exact hhas.elim
  | node x k c r ihc ihr =>
    obtain ⟨⟨inode, hnode, -, hk, hchild, -⟩, hc, hr⟩ := hrep
    have hx : NodeAt h root (p ++ [k]) x := by
      rw [← hk]
      exact .child ha (hchildren k x (.inl ⟨rfl, rfl⟩)) hnode
    rcases hhas with ⟨rfl, rfl⟩ | ⟨q', rfl, hhas⟩ | hhas
    · exact hx
    · rw [← List.singleton_append, ← List.append_assoc]
      refine ihc hx hc (fun k' b' hb' => child_of_has hc (fun y hy => ?_) hb') hhas
      exact .first hnode (hchild.trans hy)
    · exact ihr ha hr (fun k' b' hb' => hchildren k' b' (.inr (.inr hb'))) hhas

variable {root : Addr}

theorem nodeAt_iff (hstands : Stands cfg ok h root t) (p : List (List UInt8)) (b : Addr) :
    NodeAt h root p b ↔ (p = [] ∧ b = root) ∨ t.Has p b := by
  obtain ⟨top, htop, -, -, htopchild, -⟩ := hstands.top
  constructor
  · intro hp
    induction hp with
    | root => exact .inl ⟨rfl, rfl⟩
    | child ha hchild hnode ih =>
      right
      rcases ih with ⟨rfl, rfl⟩ | hhas
      · exact has_of_child htop hstands.rep htopchild hchild hnode
      · obtain ⟨c, inode, ha', hfirst, hrep, hcont⟩ := has_below hstands.rep hhas
        exact hcont _ _ (has_of_child ha' hrep hfirst hchild hnode)
  · rintro (⟨rfl, rfl⟩ | hhas)
    · exact .root
    · refine nodeAt_of_has .root hstands.rep (fun k b' hb' => ?_) hhas
      exact child_of_has hstands.rep (fun y hy => .first htop (htopchild.trans hy)) hb'

theorem pathsOf_eq (hstands : Stands cfg ok h root t) : pathsOf h root = t.paths := by
  ext p
  constructor
  · rintro ⟨hne, a, ha⟩
    rcases (nodeAt_iff hstands p a).mp ha with ⟨hnil, -⟩ | hhas
    · exact absurd hnil hne
    · exact ⟨a, hhas⟩
  · rintro ⟨a, hhas⟩
    refine ⟨?_, a, (nodeAt_iff hstands p a).mpr (.inr hhas)⟩
    rintro rfl
    exact nil_notMem_paths t ⟨a, hhas⟩

theorem nameLt_peer (hrep : Rep ok h t) (hasc : t.Ascending (nameLt cfg))
    (ha : a ∈ t.nodes) (hnode : h a = some inode) (hpeer : inode.iPeer = some b)
    (hnode' : h b = some inode') : nameLt cfg inode.iName inode'.iName := by
  induction t with
  | nil => exact absurd ha List.not_mem_nil
  | node x k c r ihc ihr =>
    obtain ⟨⟨inode0, hx, -, hk, -, hpeer0⟩, hc, hr⟩ := hrep
    obtain ⟨hless, hascc, hascr⟩ := hasc
    rcases List.mem_cons.mp ha with rfl | ha
    · obtain rfl : inode0 = inode := Option.some.inj (hx.symm.trans hnode)
      have hhas := has_first hr (hpeer0.symm.trans hpeer) hnode'
      obtain ⟨k', q, hq, hmem⟩ := head_mem_keys ⟨b, hhas⟩
      rw [hk, (List.cons.inj hq).1]
      exact hless k' hmem
    · exact (List.mem_append.mp ha).elim (ihc hc hascc) (ihr hr hascr)

theorem walk_left {left : Option Addr} (hrep : Rep ok h t)
    (hfirst : ∀ b, t.first = some b → Child h a b) (hleft : ∀ l, left = some l → Child h a l) :
    ∃ b, (walk (nameLt cfg) t p left (some a)).above = some b ∧
      ∀ l, (walk (nameLt cfg) t p left (some a)).left = some l → Child h b l := by
  induction t, p using walk_induction (nameLt cfg) generalizing left a with
  | nil p | stay x k c r => exact ⟨a, rfl, hleft⟩
  | less x k c r k' p hlt =>
    rw [walk_less hlt]
    exact ⟨a, rfl, hleft⟩
  | greater x k c r k' p hgt ih =>
    rw [walk_greater hgt]
    obtain ⟨⟨inode, hnode, -, -, -, hpeer⟩, -, hr⟩ := hrep
    have hx : Child h a x := hfirst x rfl
    refine ih hr (fun b hb => .peer hx hnode (hpeer.trans hb)) fun l hl => ?_
    exact Option.some.inj hl ▸ hx
  | found x k c r =>
    rw [walk_found]
    exact ⟨a, rfl, hleft⟩
  | below x k c r p hp ih =>
    rw [walk_below hp]
    obtain ⟨⟨inode, hnode, -, -, hchild, -⟩, hc, -⟩ := hrep
    refine ih hc (fun b hb => .first hnode (hchild.trans hb)) fun l hl => ?_
    exact absurd hl.symm (Option.some_ne_none l)

end Nuttx.Fs
