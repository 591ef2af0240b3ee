import Mathlib.Data.List.Infix
import Mathlib.Data.List.Perm.Basic
import Mathlib.Data.Set.Basic

/-!
# Forests of named nodes in left-child, right-sibling form

A forest is the list of the nodes of one level, each with a forest below it, and is kept as a binary
tree of first child and next sibling. The key of a node is unique among its siblings if these
ascend, and a list of keys then leads to at most one node.
-/

namespace SiblingTree

variable {A K : Type} {k : K}

inductive Forest (A K : Type)
  | nil
  | node (a : A) (key : K) (child peer : Forest A K)

namespace Forest

def first : Forest A K → Option A
  | nil => none
  | node a _ _ _ => some a

def nodes : Forest A K → List A
  | nil => []
  | node a _ c r => a :: (c.nodes ++ r.nodes)

def keys : Forest A K → List K
  | nil => []
  | node _ k _ r => k :: r.keys

/-- The path `p` leads to the node `b`. -/
def Has : Forest A K → List K → A → Prop
  | nil, _, _ => False
  | node a k c r, p, b => (p = [k] ∧ b = a) ∨ (∃ q, p = k :: q ∧ c.Has q b) ∨ r.Has p b

def paths (t : Forest A K) : Set (List K) := {p | ∃ b, t.Has p b}

/-- Siblings ascend strictly, on every level. -/
def Ascending (lt : K → K → Prop) : Forest A K → Prop
  | nil => True
  | node _ k c r => (∀ k' ∈ r.keys, lt k k') ∧ c.Ascending lt ∧ r.Ascending lt

def peer : Forest A K → Forest A K
  | nil => nil
  | node _ _ _ r => r

@[grind =] def chain : List K → List A → Forest A K
  | k :: ks, a :: as => node a k (chain ks as) nil
  | _, _ => nil

def grow : List K → List A → Forest A K → Forest A K
  | k :: ks, a :: as, t => node a k (chain ks as) t
  | _, _, t => t

@[simp] theorem paths_nil : (nil : Forest A K).paths = ∅ := by
  ext p
  simp [paths, Has]

variable {p : List K} {t : Forest A K}

theorem mem_paths_node {a : A} {c r : Forest A K} :
    p ∈ (node a k c r).paths ↔ p = [k] ∨ (∃ q, p = k :: q ∧ q ∈ c.paths) ∨ p ∈ r.paths := by
  constructor
  · rintro ⟨b, ⟨hp, -⟩ | ⟨q, hp, hq⟩ | hr⟩
    · exact .inl hp
    · exact .inr (.inl ⟨q, hp, b, hq⟩)
    · exact .inr (.inr ⟨b, hr⟩)
  · rintro (hp | ⟨q, hp, b, hq⟩ | ⟨b, hr⟩)
    · exact ⟨a, .inl ⟨hp, rfl⟩⟩
    · exact ⟨b, .inr (.inl ⟨q, hp, hq⟩)⟩
    · exact ⟨b, .inr (.inr hr)⟩

theorem Has.mem_nodes {b : A} (h : t.Has p b) : b ∈ t.nodes := by
  induction t generalizing p with
  | nil => exact h.elim
  | node a k c r ihc ihr =>
    rcases h with ⟨-, rfl⟩ | ⟨q, -, hq⟩ | hr
    · exact List.mem_cons_self
    · exact List.mem_cons_of_mem a (List.mem_append_left _ (ihc hq))
    · exact List.mem_cons_of_mem a (List.mem_append_right _ (ihr hr))

theorem head_mem_keys (h : p ∈ t.paths) : ∃ k q, p = k :: q ∧ k ∈ t.keys := by
  induction t with
  | nil => simp at h
  | node a k c r _ ihr =>
    rcases mem_paths_node.mp h with rfl | ⟨q, rfl, -⟩ | hr
    · exact ⟨k, [], rfl, List.mem_cons_self⟩
    · exact ⟨k, q, rfl, List.mem_cons_self⟩
    · obtain ⟨k', q, hp, hk⟩ := ihr hr
      exact ⟨k', q, hp, List.mem_cons_of_mem k hk⟩

theorem mem_paths_of_isPrefix {q : List K} (hp : p ∈ t.paths) (hq : q ≠ [])
    (hpre : q <+: p) : q ∈ t.paths := by
  induction t generalizing p q with
  | nil => simp at hp
  | node a k c r ihc ihr =>
    obtain ⟨k', q, rfl⟩ := List.exists_cons_of_ne_nil hq
    rcases mem_paths_node.mp hp with rfl | ⟨p', rfl, hp'⟩ | hr
    · obtain ⟨rfl, hnil⟩ := List.cons_prefix_cons.mp hpre
      exact mem_paths_node.mpr (.inl (by rw [List.prefix_nil.mp hnil]))
    · obtain ⟨rfl, hpre'⟩ := List.cons_prefix_cons.mp hpre
      by_cases hnil : q = []
      · exact mem_paths_node.mpr (.inl (by rw [hnil]))
      · exact mem_paths_node.mpr (.inr (.inl ⟨q, rfl, ihc hp' hnil hpre'⟩))
    · exact mem_paths_node.mpr (.inr (.inr (ihr hr hq hpre)))

theorem nil_notMem_paths (t : Forest A K) : [] ∉ t.paths := by
  intro h
  obtain ⟨k, q, hp, -⟩ := head_mem_keys h
  exact absurd hp (List.cons_ne_nil k q).symm

theorem mem_paths_chain {ks : List K} {as : List A} (h : ks.length ≤ as.length) (p : List K) :
    p ∈ (chain ks as).paths ↔ p ≠ [] ∧ p <+: ks := by
  induction ks generalizing as p with
  | nil => simp [chain]
  | cons k ks ih =>
    cases as with
    | nil => simp at h
    | cons a as =>
      have hlen : ks.length ≤ as.length := Nat.le_of_succ_le_succ h
      rw [chain, mem_paths_node]
      cases p with
      | nil => simp
      | cons k' p =>
        simp only [List.cons.injEq, paths_nil, Set.mem_empty_iff_false, or_false, ne_eq,
          reduceCtorEq, not_false_eq_true, true_and, List.cons_prefix_cons]
        constructor
        · rintro (⟨rfl, rfl⟩ | ⟨q, ⟨rfl, rfl⟩, hq⟩)
          · exact ⟨rfl, List.nil_prefix⟩
          · exact ⟨rfl, ((ih hlen p).mp hq).2⟩
        · rintro ⟨rfl, hp⟩
          by_cases hnil : p = []
          · exact .inl ⟨rfl, hnil⟩
          · exact .inr ⟨p, ⟨rfl, rfl⟩, (ih hlen p).mpr ⟨hnil, hp⟩⟩

theorem nodes_chain (ks : List K) (as : List A) : (chain ks as).nodes = as.take ks.length := by
  induction ks generalizing as with
  | nil => rfl
  | cons k ks ih =>
    cases as with
    | nil => rfl
    | cons a as => simp [chain, nodes, ih]

theorem nodes_grow (ks : List K) (as : List A) (t : Forest A K) :
    (grow ks as t).nodes = as.take ks.length ++ t.nodes := by
  cases ks with
  | nil => rfl
  | cons k ks =>
    cases as with
    | nil => rfl
    | cons a as => simp [grow, nodes, nodes_chain]

theorem ascending_chain (lt : K → K → Prop) (ks : List K) (as : List A) :
    (chain ks as).Ascending lt := by
  induction ks generalizing as with
  | nil => trivial
  | cons k ks ih =>
    cases as with
    | nil => trivial
    | cons a as => exact ⟨by simp [keys], ih as, trivial⟩

end Forest

open Forest

/-- Where a walk stops: at the forest `sub`, right of the sibling `left` and below `above`, with the
keys `rest` not matched before it; `found` tells that they are the single key of its first node. -/
structure Stop (A K : Type) where
  found : Bool
  left : Option A
  above : Option A
  rest : List K
  sub : Forest A K

variable (lt : K → K → Prop) [DecidableRel lt]

def walk : Forest A K → List K → Option A → Option A → Stop A K
  | nil, p, left, above => ⟨false, left, above, p, nil⟩
  | node a k c r, [], left, above => ⟨false, left, above, [], node a k c r⟩
  | node a k c r, k' :: p, left, above =>
    if lt k' k then ⟨false, left, above, k' :: p, node a k c r⟩
    else if lt k k' then walk r (k' :: p) (some a) above
    else if p = [] then ⟨true, left, above, [k'], node a k c r⟩
    else walk c p none (some a)

/-- The forest with `u` in place of the one at which the walk stops. -/
def replace : Forest A K → List K → Forest A K → Forest A K
  | nil, _, u => u
  | node _ _ _ _, [], u => u
  | node a k c r, k' :: p, u =>
    if lt k' k then u
    else if lt k k' then node a k c (replace r (k' :: p) u)
    else if p = [] then u
    else node a k (replace c p u) r

variable {lt}

section Walk

variable {a : A} {k k' : K} {c r : Forest A K} {p : List K} {left above : Option A}

theorem walk_cons : walk lt (node a k c r) (k' :: p) left above =
    if lt k' k then ⟨false, left, above, k' :: p, node a k c r⟩
    else if lt k k' then walk lt r (k' :: p) (some a) above
    else if p = [] then ⟨true, left, above, [k'], node a k c r⟩
    else walk lt c p none (some a) :=
  rfl

variable {u : Forest A K}

theorem replace_cons : replace lt (node a k c r) (k' :: p) u =
    if lt k' k then u
    else if lt k k' then node a k c (replace lt r (k' :: p) u)
    else if p = [] then u
    else node a k (replace lt c p u) r :=
  rfl

theorem walk_less (h : lt k' k) :
    walk lt (node a k c r) (k' :: p) left above = ⟨false, left, above, k' :: p, node a k c r⟩ := by
  rw [walk_cons, if_pos h]

theorem replace_less (h : lt k' k) : replace lt (node a k c r) (k' :: p) u = u := by
  rw [replace_cons, if_pos h]

variable [IsStrictTotalOrder K lt]

theorem walk_greater (h : lt k k') :
    walk lt (node a k c r) (k' :: p) left above = walk lt r (k' :: p) (some a) above := by
  rw [walk_cons, if_neg (asymm h), if_pos h]

theorem replace_greater (h : lt k k') :
    replace lt (node a k c r) (k' :: p) u = node a k c (replace lt r (k' :: p) u) := by
  rw [replace_cons, if_neg (asymm h), if_pos h]

theorem walk_found :
    walk lt (node a k c r) [k] left above = ⟨true, left, above, [k], node a k c r⟩ := by
  rw [walk_cons, if_neg (irrefl k), if_neg (irrefl k), if_pos rfl]

theorem replace_found : replace lt (node a k c r) [k] u = u := by
  rw [replace_cons, if_neg (irrefl k), if_neg (irrefl k), if_pos rfl]

theorem walk_below (h : p ≠ []) :
    walk lt (node a k c r) (k :: p) left above = walk lt c p none (some a) := by
  rw [walk_cons, if_neg (irrefl k), if_neg (irrefl k), if_neg h]

theorem replace_below (h : p ≠ []) :
    replace lt (node a k c r) (k :: p) u = node a k (replace lt c p u) r := by
  rw [replace_cons, if_neg (irrefl k), if_neg (irrefl k), if_neg h]

end Walk

variable [IsStrictTotalOrder K lt]

variable (lt) in
omit [DecidableRel lt] in
theorem walk_induction {motive : Forest A K → List K → Prop} (nil : ∀ p, motive nil p)
    (stay : ∀ a k c r, motive (node a k c r) [])
    (less : ∀ a k c r k' p, lt k' k → motive (node a k c r) (k' :: p))
    (greater : ∀ a k c r k' p, lt k k' → motive r (k' :: p) → motive (node a k c r) (k' :: p))
    (found : ∀ a k c r, motive (node a k c r) [k])
    (below : ∀ a k c r p, p ≠ [] → motive c p → motive (node a k c r) (k :: p))
    (t : Forest A K) (p : List K) : motive t p := by
  induction t generalizing p with
  | nil => exact nil p
  | node a k c r ihc ihr =>
    cases p with
    | nil => exact stay a k c r
    | cons k' p =>
      rcases trichotomous_of lt k' k with hlt | rfl | hgt
      · exact less a k c r k' p hlt
      · by_cases hnil : p = []
        · subst hnil
          exact found a k' c r
        · exact below a k' c r p hnil (ihc p)
      · exact greater a k c r k' p hgt (ihr _)

variable (lt) in
theorem nodes_replace (t : Forest A K) (p : List K) (left above : Option A) :
    ∃ others, t.nodes.Perm ((walk lt t p left above).sub.nodes ++ others) ∧
      ∀ u, (replace lt t p u).nodes.Perm (u.nodes ++ others) := by
  induction t, p using walk_induction lt generalizing left above with
  | nil p => exact ⟨[], by simp [walk, nodes], fun u => by simp [replace]⟩
  | stay a k c r => exact ⟨[], by simp [walk], fun u => by simp [replace]⟩
  | less a k c r k' p hlt =>
    exact ⟨[], by simp [walk_less hlt], fun u => by simp [replace_less hlt]⟩
  | greater a k c r k' p hgt ih =>
    obtain ⟨others, hold, hnew⟩ := ih (some a) above
    refine ⟨a :: c.nodes ++ others, ?_, fun u => ?_⟩
    · rw [walk_greater hgt, nodes, ← List.cons_append]
      exact (hold.append_left _).trans (List.perm_append_comm_assoc _ _ _)
    · rw [replace_greater hgt, nodes, ← List.cons_append]
      exact ((hnew u).append_left _).trans (List.perm_append_comm_assoc _ _ _)
  | found a k c r => exact ⟨[], by simp [walk_found], fun u => by simp [replace_found]⟩
  | below a k c r p hp ih =>
    obtain ⟨others, hold, hnew⟩ := ih none (some a)
    refine ⟨others ++ a :: r.nodes, ?_, fun u => ?_⟩
    · rw [walk_below hp, nodes, ← List.append_assoc]
      exact (hold.append_right r.nodes |>.cons a).trans List.perm_middle.symm
    · rw [replace_below hp, nodes, ← List.append_assoc]
      exact ((hnew u).append_right r.nodes |>.cons a).trans List.perm_middle.symm

variable (lt) in
theorem walk_rest (t : Forest A K) (p : List K) (left above : Option A) :
    (walk lt t p left above).rest <:+ p ∧ ((walk lt t p left above).rest = [] → p = []) := by
  induction t, p using walk_induction lt generalizing left above with
  | nil p | stay a k c r => exact ⟨List.suffix_rfl, id⟩
  | less a k c r k' p hlt =>
    rw [walk_less hlt]
    exact ⟨List.suffix_rfl, id⟩
  | greater a k c r k' p hgt ih =>
    rw [walk_greater hgt]
    exact ih (some a) above
  | found a k c r =>
    rw [walk_found]
    exact ⟨List.suffix_rfl, id⟩
  | below a k c r p hp ih =>
    rw [walk_below hp]
    obtain ⟨hsuffix, hnil⟩ := ih none (some a)
    exact ⟨hsuffix.trans (List.suffix_cons k p), fun h => absurd (hnil h) hp⟩

variable {t : Forest A K} {p : List K} {left above : Option A} {as : List A}

theorem has_replace {u : Forest A K} {b : A}
    (h : u.Has (walk lt t p left above).rest b) : (replace lt t p u).Has p b := by
  induction t, p using walk_induction lt generalizing left above with
  | nil p => exact h
  | stay a k c r => exact h
  | less a k c r k' p hlt =>
    rw [walk_less hlt] at h
    rw [replace_less hlt]
    exact h
  | greater a k c r k' p hgt ih =>
    rw [walk_greater hgt] at h
    rw [replace_greater hgt]
    exact .inr (.inr (ih h))
  | found a k c r =>
    rw [walk_found] at h
    rw [replace_found]
    exact h
  | below a k c r p hp ih =>
    rw [walk_below hp] at h
    rw [replace_below hp]
    exact .inr (.inl ⟨p, rfl, ih h⟩)

theorem walk_found_spec (h : (walk lt t p left above).found = true) :
    ∃ a k c r, (walk lt t p left above).sub = node a k c r ∧ t.Has p a ∧
      (walk lt t p left above).rest = [k] ∧ p = p.dropLast ++ [k] ∧
      ((p.dropLast = [] ∧ (walk lt t p left above).above = above) ∨
        ∃ b, (walk lt t p left above).above = some b ∧ t.Has p.dropLast b) := by
  induction t, p using walk_induction lt generalizing left above with
  | nil p | stay a k c r => exact absurd h Bool.false_ne_true
  | less a k c r k' p hlt =>
    rw [walk_less hlt] at h
    exact absurd h Bool.false_ne_true
  | greater a k c r k' p hgt ih =>
    rw [walk_greater hgt] at h ⊢
    obtain ⟨b, kb, cb, rb, hsub, hhas, hrest, hp, habove⟩ := ih h
    refine ⟨b, kb, cb, rb, hsub, .inr (.inr hhas), hrest, hp, ?_⟩
    exact habove.imp_right fun ⟨d, hd, hhasd⟩ => ⟨d, hd, .inr (.inr hhasd)⟩
  | found a k c r =>
    rw [walk_found]
    exact ⟨a, k, c, r, rfl, .inl ⟨rfl, rfl⟩, rfl, rfl, .inl ⟨rfl, rfl⟩⟩
  | below a k c r p hp ih =>
    rw [walk_below hp] at h ⊢
    obtain ⟨b, kb, cb, rb, hsub, hhas, hrest, hlast, habove⟩ := ih h
    have hdrop : (k :: p).dropLast = k :: p.dropLast := List.dropLast_cons_of_ne_nil hp
    refine ⟨b, kb, cb, rb, hsub, .inr (.inl ⟨p, rfl, hhas⟩), hrest, ?_, .inr ?_⟩
    · rw [hdrop, List.cons_append, ← hlast]
    rw [hdrop]
    rcases habove with ⟨hnil, habove⟩ | ⟨d, habove, hhasd⟩
    · exact ⟨a, habove, .inl ⟨by rw [hnil], rfl⟩⟩
    · exact ⟨d, habove, .inr (.inl ⟨p.dropLast, rfl, hhasd⟩)⟩

omit [DecidableRel lt] [IsStrictTotalOrder K lt] in
theorem notMem_paths_peer {a : A} {c r : Forest A K} (hasc : (node a k c r).Ascending lt)
    {k' : K} (hk : ¬lt k k') (p : List K) : k' :: p ∉ r.paths := by
  intro h
  obtain ⟨k'', q, hp, hmem⟩ := head_mem_keys h
  obtain ⟨rfl, -⟩ := List.cons.inj hp
  exact hk (hasc.1 _ hmem)

omit [DecidableRel lt] in
theorem Forest.Has.unique {a b : A} (hasc : t.Ascending lt)
    (ha : t.Has p a) (hb : t.Has p b) : a = b := by
  induction t generalizing p with
  | nil => exact ha.elim
  | node x k c r ihc ihr =>
    have hpeer : ∀ q d, ¬r.Has (k :: q) d := fun q d hd =>
      notMem_paths_peer hasc (irrefl_of lt k) q ⟨d, hd⟩
    have hnil : ∀ d, ¬c.Has [] d := fun d hd => nil_notMem_paths c ⟨d, hd⟩
    rcases ha with ⟨rfl, rfl⟩ | ⟨q, rfl, ha⟩ | ha
    · rcases hb with ⟨-, rfl⟩ | ⟨q, hq, hb⟩ | hb
      · rfl
      · exact absurd ((List.cons.inj hq).2 ▸ hb) (hnil b)
      · exact absurd hb (hpeer [] b)
    · rcases hb with ⟨hq, -⟩ | ⟨q', hq, hb⟩ | hb
      · exact absurd ((List.cons.inj hq).2 ▸ ha) (hnil a)
      · exact ihc hasc.2.1 ha ((List.cons.inj hq).2 ▸ hb)
      · exact absurd hb (hpeer q b)
    · rcases hb with ⟨rfl, -⟩ | ⟨q, rfl, -⟩ | hb
      · exact absurd ha (hpeer [] a)
      · exact absurd ha (hpeer q a)
      · exact ihr hasc.2.2 ha hb

theorem walk_found_iff
    (hasc : t.Ascending lt) : (walk lt t p left above).found = true ↔ p ∈ t.paths := by
  constructor
  · intro h
    obtain ⟨a, k, c, r, -, hhas, -⟩ := walk_found_spec h
    exact ⟨a, hhas⟩
  intro h
  induction t, p using walk_induction lt generalizing left above with
  | nil p => simp at h
  | stay a k c r => exact absurd h (nil_notMem_paths _)
  | less a k c r k' p hlt =>
    rcases mem_paths_node.mp h with hp | ⟨q, hp, -⟩ | hr
    · exact absurd ((List.cons.inj hp).1 ▸ hlt) (irrefl k)
    · exact absurd ((List.cons.inj hp).1 ▸ hlt) (irrefl k)
    · exact absurd hr (notMem_paths_peer hasc (asymm hlt) p)
  | greater a k c r k' p hgt ih =>
    rw [walk_greater hgt]
    apply ih hasc.2.2
    rcases mem_paths_node.mp h with hp | ⟨q, hp, -⟩ | hr
    · exact absurd ((List.cons.inj hp).1 ▸ hgt) (irrefl k)
    · exact absurd ((List.cons.inj hp).1 ▸ hgt) (irrefl k)
    · exact hr
  | found a k c r => rw [walk_found]
  | below a k c r p hp ih =>
    rw [walk_below hp]
    apply ih hasc.2.1
    rcases mem_paths_node.mp h with hnil | ⟨q, hq, hmem⟩ | hr
    · exact absurd (List.cons.inj hnil).2 hp
    · exact (List.cons.inj hq).2 ▸ hmem
    · exact absurd hr (notMem_paths_peer hasc (irrefl k) p)

/-- The forest with new nodes where the walk stops. -/
def insert (lt : K → K → Prop) [DecidableRel lt] (t : Forest A K) (p : List K) (as : List A) :
    Forest A K :=
  replace lt t p (grow (walk lt t p none none).rest as (walk lt t p none none).sub)

/-- The forest without the node at which the walk stops and what is below it. -/
def erase (lt : K → K → Prop) [DecidableRel lt] (t : Forest A K) (p : List K) : Forest A K :=
  replace lt t p (walk lt t p none none).sub.peer

variable (lt) in
theorem walk_sub (t : Forest A K) (p : List K) (left above : Option A) :
    (walk lt t p left above).found = (walk lt t p none none).found ∧
      (walk lt t p left above).rest = (walk lt t p none none).rest ∧
      (walk lt t p left above).sub = (walk lt t p none none).sub := by
  induction t, p using walk_induction lt generalizing left above with
  | nil p | stay a k c r => exact ⟨rfl, rfl, rfl⟩
  | less a k c r k' p hlt => simp [walk_less hlt]
  | greater a k c r k' p hgt ih =>
    rw [walk_greater hgt, walk_greater hgt]
    obtain ⟨hfound, hrest, hsub⟩ := ih (some a) above
    obtain ⟨hfound', hrest', hsub'⟩ := ih (some a) none
    exact ⟨hfound.trans hfound'.symm, hrest.trans hrest'.symm, hsub.trans hsub'.symm⟩
  | found a k c r => simp [walk_found]
  | below a k c r p hp ih => rw [walk_below hp, walk_below hp]; exact ⟨rfl, rfl, rfl⟩

section Insert

variable {a : A} {k k' : K} {c r : Forest A K} {p : List K} {as : List A}

omit [IsStrictTotalOrder K lt] in
theorem insert_less (h : lt k' k) :
    insert lt (node a k c r) (k' :: p) as = grow (k' :: p) as (node a k c r) := by
  rw [insert, walk_less h, replace_less h]

theorem insert_greater (h : lt k k') :
    insert lt (node a k c r) (k' :: p) as = node a k c (insert lt r (k' :: p) as) := by
  obtain ⟨-, hrest, hsub⟩ := walk_sub lt r (k' :: p) (some a) none
  rw [insert, walk_greater h, replace_greater h, hrest, hsub, insert]

theorem insert_below (h : p ≠ []) :
    insert lt (node a k c r) (k :: p) as = node a k (insert lt c p as) r := by
  obtain ⟨-, hrest, hsub⟩ := walk_sub lt c p none (some a)
  rw [insert, walk_below h, replace_below h, hrest, hsub, insert]

theorem erase_greater (h : lt k k') :
    erase lt (node a k c r) (k' :: p) = node a k c (erase lt r (k' :: p)) := by
  obtain ⟨-, -, hsub⟩ := walk_sub lt r (k' :: p) (some a) none
  rw [erase, walk_greater h, replace_greater h, hsub, erase]

theorem erase_found : erase lt (node a k c r) [k] = r := by
  rw [erase, walk_found, replace_found, peer]

theorem erase_below (h : p ≠ []) :
    erase lt (node a k c r) (k :: p) = node a k (erase lt c p) r := by
  obtain ⟨-, -, hsub⟩ := walk_sub lt c p none (some a)
  rw [erase, walk_below h, replace_below h, hsub, erase]

end Insert

theorem nodes_insert (t : Forest A K) (p : List K) (as : List A) :
    (insert lt t p as).nodes.Perm (as.take (walk lt t p none none).rest.length ++ t.nodes) := by
  obtain ⟨others, hold, hnew⟩ := nodes_replace lt t p none none
  refine (hnew _).trans ?_
  rw [nodes_grow, List.append_assoc]
  exact hold.symm.append_left _

omit [IsStrictTotalOrder K lt] [DecidableRel lt] in
theorem mem_paths_grow (hp : p ≠ []) (hlen : p.length ≤ as.length) (t : Forest A K) (q : List K) :
    q ∈ (grow p as t).paths ↔ q ∈ t.paths ∨ (q ≠ [] ∧ q <+: p) := by
  obtain ⟨k, p, rfl⟩ := List.exists_cons_of_ne_nil hp
  obtain ⟨a, as, rfl⟩ := List.exists_cons_of_length_pos (Nat.lt_of_lt_of_le (Nat.succ_pos _) hlen)
  have hchain := mem_paths_chain hlen q
  rw [chain, mem_paths_node, paths_nil] at hchain
  rw [grow, mem_paths_node, ← hchain]
  simp [or_comm (a := q ∈ t.paths), or_assoc]

theorem mem_paths_insert (hp : p ≠ [])
    (hfound : (walk lt t p none none).found = false) (hlen : p.length ≤ as.length) (q : List K) :
    q ∈ (insert lt t p as).paths ↔ q ∈ t.paths ∨ (q ≠ [] ∧ q <+: p) := by
  induction t, p using walk_induction lt generalizing q with
  | nil p => exact mem_paths_grow hp hlen nil q
  | stay a k c r => exact absurd rfl hp
  | less a k c r k' p hlt =>
    rw [insert_less hlt]
    exact mem_paths_grow hp hlen _ q
  | greater a k c r k' p hgt ih =>
    rw [walk_greater hgt, (walk_sub lt r (k' :: p) (some a) none).1] at hfound
    rw [insert_greater hgt, mem_paths_node, mem_paths_node, ih hp hfound hlen]
    simp only [or_assoc]
  | found a k c r =>
    rw [walk_found] at hfound
    exact absurd hfound.symm Bool.false_ne_true
  | below a k c r p hnil ih =>
    rw [walk_below hnil, (walk_sub lt c p none (some a)).1] at hfound
    have hlen' : p.length ≤ as.length := Nat.le_of_succ_le hlen
    rw [insert_below hnil, mem_paths_node, mem_paths_node]
    constructor
    · rintro (hq | ⟨q', rfl, hq'⟩ | hr)
      · exact .inl (.inl hq)
      · rcases (ih hnil hfound hlen' q').mp hq' with hold | ⟨-, hnew⟩
        · exact .inl (.inr (.inl ⟨q', rfl, hold⟩))
        · exact .inr ⟨List.cons_ne_nil k q', List.cons_prefix_cons.mpr ⟨rfl, hnew⟩⟩
      · exact .inl (.inr (.inr hr))
    · rintro ((hq | ⟨q', rfl, hq'⟩ | hr) | ⟨hne, hpre⟩)
      · exact .inl hq
      · exact .inr (.inl ⟨q', rfl, (ih hnil hfound hlen' q').mpr (.inl hq')⟩)
      · exact .inr (.inr hr)
      obtain ⟨k', q', rfl⟩ := List.exists_cons_of_ne_nil hne
      obtain ⟨rfl, hpre'⟩ := List.cons_prefix_cons.mp hpre
      by_cases hq' : q' = []
      · exact .inl (by rw [hq'])
      · exact .inr (.inl ⟨q', rfl, (ih hnil hfound hlen' q').mpr (.inr ⟨hq', hpre'⟩)⟩)

omit [IsStrictTotalOrder K lt] [DecidableRel lt] in
theorem mem_keys_grow
    (h : k ∈ (grow p as t).keys) : k ∈ t.keys ∨ p.head? = some k := by
  cases p with
  | nil => exact .inl h
  | cons k' p =>
    cases as with
    | nil => exact .inl h
    | cons a as => exact (List.mem_cons.mp h).symm.imp_right fun hk => by rw [hk, List.head?_cons]

theorem mem_keys_insert
    (h : k ∈ (insert lt t p as).keys) : k ∈ t.keys ∨ p.head? = some k := by
  induction t, p using walk_induction lt with
  | nil p => exact mem_keys_grow h
  | stay a k c r => exact .inl h
  | less a k c r k' p hlt =>
    rw [insert_less hlt] at h
    exact mem_keys_grow h
  | greater a k c r k' p hgt ih =>
    rw [insert_greater hgt] at h
    rcases List.mem_cons.mp h with rfl | hr
    · exact .inl List.mem_cons_self
    · exact (ih hr).imp_left (List.mem_cons_of_mem _)
  | found a k c r =>
    rw [insert, walk_found, replace_found] at h
    exact mem_keys_grow h
  | below a k c r p hnil ih =>
    rw [insert_below hnil] at h
    exact .inl h

omit [IsStrictTotalOrder K lt] [DecidableRel lt] in
theorem ascending_grow (as : List A) (hasc : t.Ascending lt)
    (hless : ∀ k, p.head? = some k → ∀ m ∈ t.keys, lt k m) : (grow p as t).Ascending lt := by
  cases p with
  | nil => exact hasc
  | cons k p =>
    cases as with
    | nil => exact hasc
    | cons a as => exact ⟨hless k rfl, ascending_chain lt p as, hasc⟩

theorem ascending_insert (as : List A)
    (hfound : (walk lt t p none none).found = false) (hasc : t.Ascending lt) :
    (insert lt t p as).Ascending lt := by
  induction t, p using walk_induction lt with
  | nil p => exact ascending_grow as trivial fun k _ m hm => absurd hm List.not_mem_nil
  | stay a k c r => exact hasc
  | less a k c r k' p hlt =>
    rw [insert_less hlt]
    refine ascending_grow as hasc fun m hm n hn => ?_
    obtain rfl : k' = m := Option.some.inj hm
    rcases List.mem_cons.mp hn with rfl | hr
    · exact hlt
    · exact trans_of lt hlt (hasc.1 _ hr)
  | greater a k c r k' p hgt ih =>
    rw [walk_greater hgt, (walk_sub lt r (k' :: p) (some a) none).1] at hfound
    rw [insert_greater hgt]
    refine ⟨fun m hm => ?_, hasc.2.1, ih hfound hasc.2.2⟩
    rcases mem_keys_insert hm with hr | hhead
    · exact hasc.1 _ hr
    · exact Option.some.inj hhead ▸ hgt
  | found a k c r =>
    rw [walk_found] at hfound
    exact absurd hfound.symm Bool.false_ne_true
  | below a k c r p hnil ih =>
    rw [walk_below hnil, (walk_sub lt c p none (some a)).1] at hfound
    rw [insert_below hnil]
    exact ⟨hasc.1, ih hfound hasc.2.1, hasc.2.2⟩

variable (lt) in
theorem nodes_erase (t : Forest A K) (p : List K) :
    ∃ gone, t.nodes.Perm (gone ++ (erase lt t p).nodes) := by
  obtain ⟨others, hold, hnew⟩ := nodes_replace lt t p none none
  have hpeer : ∀ u : Forest A K, ∃ gone, u.nodes = gone ++ u.peer.nodes := by
    intro u
    cases u with
    | nil => exact ⟨[], rfl⟩
    | node a k c r => exact ⟨a :: c.nodes, rfl⟩
  obtain ⟨gone, hgone⟩ := hpeer (walk lt t p none none).sub
  refine ⟨gone, hold.trans ?_⟩
  rw [hgone, List.append_assoc]
  exact (hnew _).symm.append_left _

variable (hfound : (walk lt t p none none).found = true)
include hfound

theorem mem_paths_erase (hasc : t.Ascending lt) (q : List K) :
    q ∈ (erase lt t p).paths ↔ q ∈ t.paths ∧ ¬p <+: q := by
  induction t, p using walk_induction lt generalizing q with
  | nil p | stay a k c r => exact absurd hfound Bool.false_ne_true
  | less a k c r k' p hlt =>
    rw [walk_less hlt] at hfound
    exact absurd hfound Bool.false_ne_true
  | greater a k c r k' p hgt ih =>
    rw [walk_greater hgt, (walk_sub lt r (k' :: p) (some a) none).1] at hfound
    have hne : k' ≠ k := fun h => irrefl_of lt k (h ▸ hgt)
    rw [erase_greater hgt, mem_paths_node, mem_paths_node, ih hfound hasc.2.2]
    constructor
    · rintro (rfl | ⟨q', rfl, hq'⟩ | ⟨hr, hpre⟩)
      · exact ⟨.inl rfl, fun hpre => hne (List.cons_prefix_cons.mp hpre).1⟩
      · exact ⟨.inr (.inl ⟨q', rfl, hq'⟩), fun hpre => hne (List.cons_prefix_cons.mp hpre).1⟩
      · exact ⟨.inr (.inr hr), hpre⟩
    · rintro ⟨hq, hpre⟩
      exact hq.imp_right (Or.imp_right fun hr => ⟨hr, hpre⟩)
  | found a k c r =>
    rw [erase_found, mem_paths_node]
    constructor
    · intro hr
      refine ⟨.inr (.inr hr), ?_⟩
      rintro ⟨s, rfl⟩
      exact notMem_paths_peer hasc (irrefl k) s hr
    · rintro ⟨rfl | ⟨q', rfl, -⟩ | hr, hpre⟩
      · exact absurd List.prefix_rfl hpre
      · exact absurd ⟨q', rfl⟩ hpre
      · exact hr
  | below a k c r p hnil ih =>
    rw [walk_below hnil, (walk_sub lt c p none (some a)).1] at hfound
    rw [erase_below hnil, mem_paths_node, mem_paths_node]
    constructor
    · rintro (rfl | ⟨q', rfl, hq'⟩ | hr)
      · refine ⟨.inl rfl, fun hpre => hnil ?_⟩
        exact List.prefix_nil.mp (List.cons_prefix_cons.mp hpre).2
      · obtain ⟨hq', hpre⟩ := (ih hfound hasc.2.1 q').mp hq'
        exact ⟨.inr (.inl ⟨q', rfl, hq'⟩), fun h => hpre (List.cons_prefix_cons.mp h).2⟩
      · refine ⟨.inr (.inr hr), ?_⟩
        rintro ⟨s, rfl⟩
        exact notMem_paths_peer hasc (irrefl k) (p ++ s) hr
    · rintro ⟨hq | ⟨q', rfl, hq'⟩ | hr, hpre⟩
      · exact .inl hq
      · refine .inr (.inl ⟨q', rfl, (ih hfound hasc.2.1 q').mpr ⟨hq', fun h => hpre ?_⟩⟩)
        exact List.cons_prefix_cons.mpr ⟨rfl, h⟩
      · exact .inr (.inr hr)

theorem mem_keys_erase (h : k ∈ (erase lt t p).keys) : k ∈ t.keys := by
  induction t, p using walk_induction lt with
  | nil p | stay a k c r => exact absurd hfound Bool.false_ne_true
  | less a k c r k' p hlt =>
    rw [walk_less hlt] at hfound
    exact absurd hfound Bool.false_ne_true
  | greater a k c r k' p hgt ih =>
    rw [walk_greater hgt, (walk_sub lt r (k' :: p) (some a) none).1] at hfound
    rw [erase_greater hgt] at h
    rcases List.mem_cons.mp h with rfl | hr
    · exact List.mem_cons_self
    · exact List.mem_cons_of_mem _ (ih hfound hr)
  | found a k c r =>
    rw [erase_found] at h
    exact List.mem_cons_of_mem _ h
  | below a k c r p hnil ih =>
    rw [erase_below hnil] at h
    exact h

theorem ascending_erase (hasc : t.Ascending lt) : (erase lt t p).Ascending lt := by
  induction t, p using walk_induction lt with
  | nil p => exact hasc
  | stay a k c r => exact absurd hfound Bool.false_ne_true
  | less a k c r k' p hlt =>
    rw [walk_less hlt] at hfound
    exact absurd hfound Bool.false_ne_true
  | greater a k c r k' p hgt ih =>
    rw [walk_greater hgt, (walk_sub lt r (k' :: p) (some a) none).1] at hfound
    rw [erase_greater hgt]
    exact ⟨fun m hm => hasc.1 _ (mem_keys_erase hfound hm), hasc.2.1, ih hfound hasc.2.2⟩
  | found a k c r =>
    rw [erase_found]
    exact hasc.2.2
  | below a k c r p hnil ih =>
    rw [walk_below hnil, (walk_sub lt c p none (some a)).1] at hfound
    rw [erase_below hnil]
    exact ⟨hasc.1, ih hfound hasc.2.1, hasc.2.2⟩

end SiblingTree
