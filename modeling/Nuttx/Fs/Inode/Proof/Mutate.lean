import Nuttx.Fs.Inode.Proof.Change

/-!
# New nodes and removed ones

What `inode_reserve` and `inode_remove` do at the pointer a search has found, as changes of the forest that
hangs there.
-/

open List Option

namespace Nuttx.Fs

open SiblingTree SiblingTree.Forest

variable {h : Heap} {s : Slot} {left above : Option Addr} {t : Tree} {a : Addr}

namespace Heap

@[simp] theorem put_self (h : Heap) (a : Addr) (inode : Inode) : h.put a inode a = some inode :=
  if_pos rfl

theorem put_of_ne (h : Heap) {a b : Addr} (inode : Inode) (hne : b ≠ a) : h.put a inode b = h b :=
  if_neg hne

def write (h : Heap) (s : Slot) (v : Option Addr) : Option Heap :=
  match s with
  | .child a => h.setChild a v
  | .peer a => h.setPeer a v

theorem write_eq {inode : Inode} (howner : h s.owner = some inode) (v : Option Addr) :
    h.write s v = some (h.put s.owner (s.put inode v)) := by
  cases s with
  | child a =>
    have ha : h a = some inode := howner
    simp only [write, setChild, ha, map_some, Slot.owner, Slot.put]
  | peer a =>
    have ha : h a = some inode := howner
    simp only [write, setPeer, ha, map_some, Slot.owner, Slot.put]

end Heap

theorem inodeInsert_eq (hs : Slot.ofStop left above = some s) (node : Addr) :
    inodeInsert h node left above = (h s.owner).bind fun inode =>
      (h.setPeer node (s.get inode)).bind fun h => h.write s (some node) := by
  cases left with
  | some l =>
    obtain rfl : Slot.peer l = s := Option.some.inj hs
    rfl
  | none =>
    cases above with
    | none => exact absurd hs.symm (some_ne_none s)
    | some a =>
      obtain rfl : Slot.child a = s := Option.some.inj hs
      rfl

theorem inodeInsert_new (hs : Slot.ofStop left above = some s) (hangs : Hangs h s t)
    (hfresh : h a = none) (name : List UInt8) :
    ∃ h', inodeInsert (h.put a (inodeAlloc name)) a left above = some h' ∧
      h' a = some { inodeAlloc name with iPeer := t.first } ∧
      (∀ inode, h s.owner = some inode → h' s.owner = some (s.put inode (some a))) ∧
      ∀ b, b ≠ a → b ≠ s.owner → h' b = h b := by
  obtain ⟨inode, howner, hget⟩ := hangs.held
  have hne : s.owner ≠ a := (hangs.fresh hfresh).1.symm
  have hput : (h.put a (inodeAlloc name)) s.owner = some inode := by
    rw [Heap.put_of_ne _ _ hne, howner]
  let h1 := (h.put a (inodeAlloc name)).put a { inodeAlloc name with iPeer := t.first }
  have hset : (h.put a (inodeAlloc name)).setPeer a t.first = some h1 := by
    rw [Heap.setPeer, Heap.put_self, map_some]
  have hown : h1 s.owner = some inode := (Heap.put_of_ne _ _ hne).trans hput
  refine ⟨h1.put s.owner (s.put inode (some a)), ?_, ?_, fun o ho => ?_, fun b hba hbo => ?_⟩
  · rw [inodeInsert_eq hs, hput, bind_some, hget, hset, bind_some, Heap.write_eq hown]
  · rw [Heap.put_of_ne _ _ hne.symm]
    exact Heap.put_self _ _ _
  · rw [Heap.put_self, Option.some.inj (howner.symm.trans ho)]
  · rw [Heap.put_of_ne _ _ hbo]
    exact (Heap.put_of_ne _ _ hba).trans (Heap.put_of_ne _ _ hba)

theorem reserveLoop_grow {as : List Addr} {name : List UInt8} (hname : AtName name) (hne : name ≠ [])
    (hs : Slot.ofStop left above = some s) (hangs : Hangs h s t) (hnodup : as.Nodup)
    (hfresh : ∀ a ∈ as, h a = none) (hlen : (components name).length ≤ as.length) :
    ∃ h' last, reserveLoop (as.map some) h name left above = some (h', .ok, some last) ∧
      (grow (components name) as t).Has (components name) last ∧
      Change h h' s t (grow (components name) as t) as := by
  induction as generalizing h s left above name t with
  | nil =>
    rw [components_cons hname hne] at hlen
    exact absurd hlen (Nat.not_succ_le_zero _)
  | cons a as ih =>
    rw [components_cons hname hne] at hlen ⊢
    have hfree : h a = none := hfresh a mem_cons_self
    have hlater : ∀ b ∈ as, h b = none := fun b hb => hfresh b (mem_cons_of_mem a hb)
    obtain ⟨hnotowner, hnotin⟩ := hangs.fresh hfree
    obtain ⟨h1, hinsert, hnew, howner, hframe⟩ := inodeInsert_new hs hangs hfree name
    have hnext := atName_nextname name
    have hold : Rep Plain h1 t := by
      refine hangs.rep.congr fun b hb => hframe b (ne_of_mem_of_not_mem hb hnotin) ?_
      exact ne_of_mem_of_not_mem hb (nodup_cons.mp hangs.nodup).1
    rw [map_cons, reserveLoop, hinsert]
    by_cases hend : inodeNextname name = []
    · -- the last name
      have hcomps : components (inodeNextname name) = [] := (components_eq_nil hnext).mpr hend
      refine ⟨h1, a, by simp [hend], ?_, ?_⟩
      · rw [hcomps]
        exact .inl ⟨rfl, rfl⟩
      · rw [hcomps]
        refine ⟨howner, ⟨⟨_, hnew, ⟨rfl, rfl, rfl⟩, rfl, rfl, rfl⟩, trivial, hold⟩, ?_⟩
        exact fun b hbo _ hb => hframe b (fun hba => hb (hba ▸ mem_cons_self)) hbo
    -- the other names go below the new node
    have hbelow : Hangs h1 (.child a) nil := ⟨⟨_, hnew, rfl⟩, trivial, nodup_singleton a⟩
    have hfresh' : ∀ b ∈ as, h1 b = none := by
      intro b hb
      have hba : b ≠ a := ne_of_mem_of_not_mem hb (nodup_cons.mp hnodup).1
      rw [hframe b hba (hangs.fresh (hlater b hb)).1, hlater b hb]
    obtain ⟨h2, last, hloop, hhas, hchange⟩ := ih hnext hend
      (rfl : Slot.ofStop none (some a) = _) hbelow (nodup_cons.mp hnodup).2 hfresh'
      (Nat.le_of_succ_le_succ hlen)
    have hcomps := components_cons hnext hend
    have hgrow : grow (components (inodeNextname name)) as nil =
        chain (components (inodeNextname name)) as := by
      rw [hcomps]
      cases as <;> rfl
    rw [hgrow] at hchange hhas
    refine ⟨h2, last, by simp [hend, hloop], .inr (.inl ⟨_, rfl, hhas⟩), ?_, ?_, ?_⟩
    · intro inode ho
      rw [hchange.frame s.owner hnotowner.symm not_mem_nil fun hmem =>
        (hangs.fresh (hlater _ hmem)).1 rfl, howner inode ho]
      rfl
    · refine ⟨⟨_, hchange.owner _ hnew, ⟨rfl, rfl, rfl⟩, rfl, rfl, rfl⟩, hchange.rep, ?_⟩
      exact hold.congr fun b hb => hchange.frame b (ne_of_mem_of_not_mem hb hnotin)
        not_mem_nil fun hmem => (hangs.fresh (hlater b hmem)).2 hb
    · intro b hbo _ hb
      rw [mem_cons, not_or] at hb
      rw [hchange.frame b hb.1 not_mem_nil hb.2, hframe b hb.1 hbo]

def Heap.without (h : Heap) (l : List Addr) : Heap := fun b => if b ∈ l then none else h b

theorem inodeFree_forest {ok : Inode → Prop} (hrep : Rep ok h t) (hnodup : t.nodes.Nodup)
    {fuel : Nat} (hfuel : t.nodes.length < fuel) :
    inodeFree fuel h t.first = some (h.without t.nodes) := by
  induction t generalizing h fuel with
  | nil =>
    obtain ⟨fuel, rfl⟩ := Nat.exists_eq_add_one_of_ne_zero (Nat.ne_zero_of_lt hfuel)
    rfl
  | node a k c r ihc ihr =>
    obtain ⟨fuel, rfl⟩ := Nat.exists_eq_add_one_of_ne_zero (Nat.ne_zero_of_lt hfuel)
    obtain ⟨⟨inode, hnode, -, -, hchild, hpeer⟩, hc, hr⟩ := hrep
    rw [nodes, nodup_cons, mem_append, not_or, nodup_append] at hnodup
    obtain ⟨⟨hac, har⟩, hcnodup, hrnodup, hdisjoint⟩ := hnodup
    rw [nodes, length_cons, length_append] at hfuel
    have hcr : ∀ b ∈ c.nodes, b ∉ r.nodes := fun b hb hb' => hdisjoint b hb b hb' rfl
    have hfirst := ihr hr hrnodup (by omega : r.nodes.length < fuel)
    have ha : h.without r.nodes a = some inode := by rw [Heap.without, if_neg har, hnode]
    have hc' : Rep ok (h.without r.nodes) c := hc.congr fun b hb => if_neg (hcr b hb)
    have hsecond := ihc hc' hcnodup (by omega : c.nodes.length < fuel)
    rw [first]
    simp only [inodeFree, hnode, Option.bind_eq_bind, bind_some, hpeer, hfirst, ha, hchild, hsecond]
    congr 1
    funext b
    simp only [Heap.free, Heap.without, nodes, mem_cons, mem_append]
    grind

theorem unlink_free {k : List UInt8} {c r : Tree} (hangs : Hangs h s (node a k c r)) :
    ∃ h1 h2 inode, h.write s r.first = some h1 ∧ h1.setPeer a none = some h2 ∧ h2 a = some inode ∧
      inode.iCrefs = 0 ∧
      (∀ fuel, c.nodes.length + 1 < fuel → inodeFree fuel h2 (some a) =
        some (h2.without (a :: c.nodes))) ∧
      Change h (h2.without (a :: c.nodes)) s (node a k c r) r [] := by
  obtain ⟨o, howner, -⟩ := hangs.held
  obtain ⟨⟨inode, hnode, hplain, hk, hchild, hpeer⟩, hc, hr⟩ := hangs.rep
  obtain ⟨hoa, hoc, hor, hac, har, hcnodup, -, hcr⟩ := nodup_node hangs.nodup
  let h1 := h.put s.owner (s.put o r.first)
  let h2 := h1.put a { inode with iPeer := none }
  have hset : h1.setPeer a none = some h2 := by
    have ha : h1 a = some inode := (Heap.put_of_ne _ _ hoa.symm).trans hnode
    rw [Heap.setPeer, ha, map_some]
  have hsame : ∀ b, b ≠ s.owner → b ≠ a → h2 b = h b := fun b hbo hba =>
    (Heap.put_of_ne _ _ hba).trans (Heap.put_of_ne _ _ hbo)
  have hrep : Rep Plain h2 (node a k c nil) := by
    refine ⟨⟨_, Heap.put_self _ _ _, ⟨hplain.notMount, hplain.notLink, hplain.unreferenced⟩, hk, hchild,
      rfl⟩, hc.congr fun b hb => ?_, trivial⟩
    exact hsame b (ne_of_mem_of_not_mem hb hoc) (ne_of_mem_of_not_mem hb hac)
  refine ⟨h1, h2, _, Heap.write_eq howner _, hset, Heap.put_self _ _ _, hplain.unreferenced, ?_, ?_⟩
  · intro fuel hfuel
    have hnodes : (node a k c nil : Tree).nodes = a :: c.nodes := by rw [nodes, nodes, append_nil]
    rw [← hnodes]
    refine inodeFree_forest hrep ?_ ?_
    · rw [hnodes]
      exact nodup_cons.mpr ⟨hac, hcnodup⟩
    · rw [hnodes, length_cons]
      exact hfuel
  · have hkept : ∀ b, b ≠ a → b ∉ c.nodes → h2.without (a :: c.nodes) b = h2 b := fun b hba hbc =>
      if_neg (not_mem_cons_of_ne_of_not_mem hba hbc)
    refine ⟨fun o' ho' => ?_, hr.congr fun b hb => ?_, fun b hbo hb _ => ?_⟩
    · obtain rfl : o = o' := Option.some.inj (howner.symm.trans ho')
      rw [hkept _ hoa hoc]
      exact (Heap.put_of_ne _ _ hoa).trans (Heap.put_self _ _ _)
    · have hba : b ≠ a := ne_of_mem_of_not_mem hb har
      rw [hkept b hba fun hbc => hcr b hbc hb]
      exact hsame b (ne_of_mem_of_not_mem hb hor) hba
    · rw [nodes, mem_cons, mem_append, not_or, not_or] at hb
      rw [hkept b hb.1 hb.2.1]
      exact hsame b hbo hb.1

end Nuttx.Fs
