import Nuttx.Fs.Inode.Links
import Nuttx.Fs.Inode.Proof.Tree

/-!
# One level of a search

Between two nodes that match a name of its path the loop of `_inode_search` goes along siblings.
-/

open List Option

namespace Nuttx.Fs

open SiblingTree SiblingTree.Forest

variable {cfg : Config} {ok : Inode → Prop} {h : Heap} {linktarget : Addr → Option Found} {nofollow : Bool}
  {a : Addr}

@[simp] theorem Found.after_zero : Found.after 0 = id := by
  funext found
  rw [Found.after, Nat.zero_add, id]

@[simp] theorem Found.after_desc (found : Found) (n : Nat) : (found.after n).desc = found.desc := rfl

theorem Found.after_after (found : Found) (m n : Nat) : (found.after m).after n = found.after (n + m) := by
  simp only [Found.after, Nat.add_assoc]

variable {name : List UInt8}

theorem searchLoop_greater {inode : Inode} (hnode : h a = some inode)
    (hcompare : inodeCompare cfg name inode.iName > 0) (fuel : Nat) (left above : Option Addr) :
    searchLoop cfg h linktarget nofollow (fuel + 1) ⟨name, some a, left, above⟩ =
      (searchLoop cfg h linktarget nofollow fuel ⟨name, inode.iPeer, some a, above⟩).map (.after 1) := by
  simp [searchLoop, hnode, hcompare, hcompare.not_gt]

theorem searchLoop_less {inode : Inode} (hnode : h a = some inode)
    (hcompare : inodeCompare cfg name inode.iName < 0) (fuel : Nat) (left above : Option Addr) :
    searchLoop cfg h linktarget nofollow (fuel + 1) ⟨name, some a, left, above⟩ =
      some (leave nofollow name none left above none (.error .enoent)) := by
  simp [searchLoop, hnode, hcompare]

variable (cfg linktarget nofollow) in
theorem searchLoop_level {u : Tree} (hrep : Rep ok h u) (name : List UInt8)
    (left above : Option Addr) :
    (∃ k left', k ≤ u.nodes.length ∧ (u.Ascending (nameLt cfg) → ∀ c, ¬u.Has [name.takeWhile inName] c) ∧
      ∀ fuel, searchLoop cfg h linktarget nofollow fuel ⟨name, u.first, left, above⟩ =
        if fuel ≤ k then none
        else some ((leave nofollow name none left' above none (.error .enoent)).after k)) ∨
    ∃ k left' c, k + 1 ≤ u.nodes.length ∧ u.Has [name.takeWhile inName] c ∧
      ∀ fuel, searchLoop cfg h linktarget nofollow fuel ⟨name, u.first, left, above⟩ =
        if fuel < k then none
        else (searchLoop cfg h linktarget nofollow (fuel - k) ⟨name, some c, left', above⟩).map
          (.after k) := by
  induction u generalizing left with
  | nil =>
    refine .inl ⟨0, left, le_rfl, fun _ c hc => hc, fun fuel => ?_⟩
    cases fuel with
    | zero => rfl
    | succ fuel => simp [first, searchLoop]
  | node a k' c r _ ihr =>
    obtain ⟨⟨inode, hnode, -, hk, -, hpeer⟩, -, hr⟩ := hrep
    obtain ⟨hless, hgreater⟩ := inodeCompare_spec cfg name inode.iName
    rw [hk] at hless hgreater
    rcases trichotomous_of (nameLt cfg) (name.takeWhile inName) k' with hlt | heq | hgt
    · refine .inl ⟨0, left, Nat.zero_le _, fun hasc d hd => ?_, fun fuel => ?_⟩
      · rcases hd with ⟨hp, -⟩ | ⟨q, hp, -⟩ | hd
        · exact irrefl_of (nameLt cfg) k' ((List.cons.inj hp).1 ▸ hlt)
        · exact irrefl_of (nameLt cfg) k' ((List.cons.inj hp).1 ▸ hlt)
        · exact notMem_paths_peer hasc (asymm_of (nameLt cfg) hlt) [] ⟨d, hd⟩
      · cases fuel with
        | zero => rfl
        | succ fuel =>
          have hneg : inodeCompare cfg name inode.iName < 0 := by rw [hk]; exact hless.mpr hlt
          simp [first, searchLoop_less hnode hneg]
    · refine .inr ⟨0, left, a, ?_, .inl ⟨by rw [heq], rfl⟩, fun fuel => ?_⟩
      · simp [nodes]
      · simp [first]
    have hpos : inodeCompare cfg name inode.iName > 0 := by rw [hk]; exact hgreater.mpr hgt
    have hlen : r.nodes.length + 1 ≤ (node a k' c r).nodes.length := by
      simp [nodes]
    rcases ihr hr (some a) with ⟨k, left', hkle, hnone, hloop⟩ | ⟨k, left', d, hkle, hd, hloop⟩
    · refine .inl ⟨k + 1, left', by omega, fun hasc d hd => ?_, fun fuel => ?_⟩
      · rcases hd with ⟨hp, -⟩ | ⟨q, hp, -⟩ | hd
        · exact irrefl_of (nameLt cfg) k' ((List.cons.inj hp).1 ▸ hgt)
        · exact irrefl_of (nameLt cfg) k' ((List.cons.inj hp).1 ▸ hgt)
        · exact hnone hasc.2.2 d hd
      cases fuel with
      | zero => rfl
      | succ fuel =>
        rw [first, searchLoop_greater hnode hpos, hpeer, hloop]
        by_cases hfuel : fuel ≤ k
        · rw [if_pos hfuel, if_pos (by omega)]
          rfl
        · rw [if_neg hfuel, if_neg (by omega), map_some, Found.after_after, Nat.add_comm]
    · refine .inr ⟨k + 1, left', d, by omega, .inr (.inr hd), fun fuel => ?_⟩
      cases fuel with
      | zero => rfl
      | succ fuel =>
        rw [first, searchLoop_greater hnode hpos, hpeer, hloop]
        by_cases hfuel : fuel < k
        · rw [if_pos hfuel, if_pos (by omega)]
          rfl
        rw [if_neg hfuel, if_neg (by omega), Option.map_map, Nat.add_sub_add_right]
        congr 1
        funext found
        rw [Function.comp, Found.after_after, Nat.add_comm]

section Landed

variable {a : Addr} {inode : Inode} {name : List UInt8}

variable (hnode : h a = some inode) (hcompare : inodeCompare cfg name inode.iName = 0)
include hnode hcompare

theorem searchLoop_end
    (hend : inodeNextname name = [] ∨ inode.isMountpt = true) (fuel : Nat) (left above : Option Addr) :
    searchLoop cfg h linktarget nofollow (fuel + 1) ⟨name, some a, left, above⟩ =
      some (leave nofollow (inodeNextname name) (some a) left above (some (inodeNextname name)) .ok) := by
  simp [searchLoop, hnode, hcompare, hend]

theorem searchLoop_down
    (hnext : inodeNextname name ≠ []) (hmount : inode.isMountpt = false) (hlink : inode.link? = none)
    (fuel : Nat) (left above : Option Addr) :
    searchLoop cfg h linktarget nofollow (fuel + 1) ⟨name, some a, left, above⟩ =
      (searchLoop cfg h linktarget nofollow fuel ⟨inodeNextname name, inode.iChild, none, some a⟩).map
        (.after 1) := by
  simp [searchLoop, hnode, hcompare, hnext, hmount, hlink]

theorem searchLoop_link
    (hnext : inodeNextname name ≠ []) (hlink : inode.link?.isSome = true) (fuel : Nat)
    (left above : Option Addr) :
    searchLoop cfg h linktarget nofollow (fuel + 1) ⟨name, some a, left, above⟩ =
      (linktarget a).bind fun target =>
        (linkTaken cfg h nofollow (inodeNextname name) a left above target).bind
          (Sum.elim (fun found => some (found.after target.steps)) fun b =>
            (h b).bind fun node => (searchLoop cfg h linktarget nofollow fuel
              ⟨inodeNextname name, node.iChild, none, some b⟩).map (.after (target.steps + 1))) := by
  have hmount : inode.isMountpt = false := by
    obtain ⟨link, hsome⟩ := isSome_iff_exists.mp hlink
    unfold Inode.link? at hsome
    unfold Inode.isMountpt
    cases htype : inode.iType with
    | softlink link => rfl
    | _ => simp [htype] at hsome
  simp only [searchLoop, hnode, hcompare, hnext, hmount, hlink, bind_eq_bind, bind_some,
    lt_irrefl, if_false, if_true, false_or, Bool.false_eq_true, gt_iff_lt]
  congr 1
  funext target
  congr 1
  funext taken
  cases taken <;> rfl

end Landed

theorem searchLoop_mono {linktarget' : Addr → Option Found}
    (hlink : ∀ a found, linktarget a = some found → linktarget' a = some found) {fuel fuel' : Nat}
    (hfuel : fuel ≤ fuel') {cursor : Cursor} {found : Found}
    (hloop : searchLoop cfg h linktarget nofollow fuel cursor = some found) :
    searchLoop cfg h linktarget' nofollow fuel' cursor = some found := by
  induction fuel generalizing fuel' cursor found with
  | zero => exact absurd hloop.symm (some_ne_none found)
  | succ fuel ih =>
    obtain ⟨fuel', rfl⟩ := Nat.exists_eq_add_one_of_ne_zero (Nat.ne_zero_of_lt hfuel)
    have hle : fuel ≤ fuel' := Nat.le_of_succ_le_succ hfuel
    have hmap : ∀ {cursor found} (n : Nat),
        (searchLoop cfg h linktarget nofollow fuel cursor).map (Found.after n) = some found →
        (searchLoop cfg h linktarget' nofollow fuel' cursor).map (Found.after n) = some found := by
      intro cursor found n hsome
      obtain ⟨inner, hinner, rfl⟩ := map_eq_some_iff.mp hsome
      rw [ih hle hinner, map_some]
    obtain ⟨name, node, left, above⟩ := cursor
    cases node with
    | none => exact hloop
    | some a =>
      cases hnode : h a with
      | none =>
        simp [searchLoop, hnode] at hloop
      | some inode =>
        rcases lt_trichotomy (inodeCompare cfg name inode.iName) 0 with hlt | heq | hgt
        · rw [searchLoop_less hnode hlt] at hloop ⊢
          exact hloop
        · by_cases hend : inodeNextname name = [] ∨ inode.isMountpt = true
          · rw [searchLoop_end hnode heq hend] at hloop ⊢
            exact hloop
          obtain ⟨hnext, hmount⟩ := not_or.mp hend
          cases hl : inode.link?.isSome with
          | false =>
            have hnone : inode.link? = none := not_isSome_iff_eq_none.mp (by simp [hl])
            have hmount' : inode.isMountpt = false := Bool.eq_false_iff.mpr hmount
            rw [searchLoop_down hnode heq hnext hmount' hnone] at hloop ⊢
            exact hmap 1 hloop
          | true =>
            rw [searchLoop_link hnode heq hnext hl] at hloop ⊢
            obtain ⟨target, htarget, hloop⟩ := bind_eq_some_iff.mp hloop
            obtain ⟨taken, htaken, hloop⟩ := bind_eq_some_iff.mp hloop
            rw [hlink a target htarget, bind_some, htaken, bind_some]
            cases taken with
            | inl taken => exact hloop
            | inr b =>
              obtain ⟨node, hb, hloop⟩ := bind_eq_some_iff.mp hloop
              rw [Sum.elim_inr, hb, bind_some]
              exact hmap _ hloop
        · rw [searchLoop_greater hnode hgt] at hloop ⊢
          exact hmap 1 hloop

theorem linkTaken_nofollow {left above : Option Addr} {target found : Found}
    (htaken : linkTaken cfg h nofollow name a left above target = some (.inl found)) :
    found.desc.nofollow = nofollow := by
  unfold linkTaken at htaken
  cases hret : target.ret with
  | error e =>
    simp only [hret, Option.some.injEq, Sum.inl.injEq] at htaken
    rw [← htaken]
    rfl
  | ok =>
    simp only [hret, bind_eq_bind, bind_eq_some_iff] at htaken
    obtain ⟨newnode, -, inode, -, htaken⟩ := htaken
    split_ifs at htaken
    · obtain ⟨relpath, -, htaken⟩ := bind_eq_some_iff.mp htaken
      split_ifs at htaken <;>
        · simp only [Option.some.injEq, Sum.inl.injEq] at htaken
          rw [← htaken]
          rfl
    · exact absurd (Option.some.inj htaken) Sum.inr_ne_inl

theorem searchLoop_nofollow {fuel : Nat} {cursor : Cursor} {found : Found}
    (hloop : searchLoop cfg h linktarget nofollow fuel cursor = some found) :
    found.desc.nofollow = nofollow := by
  induction fuel generalizing cursor found with
  | zero => exact absurd hloop.symm (some_ne_none found)
  | succ fuel ih =>
    have hmap : ∀ {cursor found} (n : Nat),
        (searchLoop cfg h linktarget nofollow fuel cursor).map (Found.after n) = some found →
        found.desc.nofollow = nofollow := by
      intro cursor found n hsome
      obtain ⟨inner, hinner, rfl⟩ := map_eq_some_iff.mp hsome
      rw [Found.after_desc]
      exact ih hinner
    obtain ⟨name, node, left, above⟩ := cursor
    cases node with
    | none => rw [← Option.some.inj hloop]; rfl
    | some a =>
      cases hnode : h a with
      | none => simp [searchLoop, hnode] at hloop
      | some inode =>
        simp only [searchLoop, hnode, bind_eq_bind, bind_some] at hloop
        split_ifs at hloop
        · rw [← Option.some.inj hloop]; rfl
        · exact hmap 1 hloop
        · rw [← Option.some.inj hloop]; rfl
        · obtain ⟨target, -, hloop⟩ := bind_eq_some_iff.mp hloop
          obtain ⟨taken, htaken, hloop⟩ := bind_eq_some_iff.mp hloop
          cases taken with
          | inl taken =>
            rw [← Option.some.inj hloop, Found.after_desc]
            exact linkTaken_nofollow htaken
          | inr b =>
            obtain ⟨node, -, hloop⟩ := bind_eq_some_iff.mp hloop
            exact hmap _ hloop
        · exact hmap 1 hloop

theorem tree_below {root : Addr} {t : Tree} (hstands : Stands cfg ok h root t) {b : Addr}
    (hb : b ∈ root :: t.nodes) :
    ∃ u inode, h b = some inode ∧ ok inode ∧ inode.iChild = u.first ∧ Rep ok h u ∧
      u.Ascending (nameLt cfg) ∧ u.nodes ⊆ t.nodes ∧ u.nodes.length ≤ t.nodes.length := by
  have hforest : ∀ t : Tree, Rep ok h t → t.Ascending (nameLt cfg) → b ∈ t.nodes →
      ∃ u inode, h b = some inode ∧ ok inode ∧ inode.iChild = u.first ∧ Rep ok h u ∧
        u.Ascending (nameLt cfg) ∧ u.nodes.Sublist t.nodes := by
    intro t hrep hasc hb
    induction t with
    | nil => exact absurd hb not_mem_nil
    | node a k c r ihc ihr =>
      obtain ⟨⟨inode, hnode, hok, -, hchild, -⟩, hc, hr⟩ := hrep
      have hcsub : c.nodes.Sublist (node a k c r).nodes :=
        (sublist_append_left _ _).trans (sublist_cons_self _ _)
      have hrsub : r.nodes.Sublist (node a k c r).nodes :=
        (sublist_append_right _ _).trans (sublist_cons_self _ _)
      rcases mem_cons.mp hb with rfl | hb
      · exact ⟨c, inode, hnode, hok, hchild, hc, hasc.2.1, hcsub⟩
      rcases mem_append.mp hb with hb | hb
      · obtain ⟨u, inode, hnode, hok, hchild, hu, hascu, hsub⟩ := ihc hc hasc.2.1 hb
        exact ⟨u, inode, hnode, hok, hchild, hu, hascu, hsub.trans hcsub⟩
      · obtain ⟨u, inode, hnode, hok, hchild, hu, hascu, hsub⟩ := ihr hr hasc.2.2 hb
        exact ⟨u, inode, hnode, hok, hchild, hu, hascu, hsub.trans hrsub⟩
  rcases mem_cons.mp hb with rfl | hb
  · obtain ⟨inode, hnode, hok, -, hchild, -⟩ := hstands.top
    exact ⟨t, inode, hnode, hok, hchild, hstands.rep, hstands.ascending, List.Subset.refl _, le_rfl⟩
  · obtain ⟨u, inode, hnode, hok, hchild, hu, hasc, hsub⟩ := hforest t hstands.rep hstands.ascending hb
    exact ⟨u, inode, hnode, hok, hchild, hu, hasc, hsub.subset, hsub.length_le⟩

end Nuttx.Fs
