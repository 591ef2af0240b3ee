import Nuttx.Fs.Inode.Proof.Level

/-!
# One call of the search

What `_inode_linktarget` and the loop of `_inode_search` come to, and how long they take, if the calls
they make return.
-/

open Option

namespace Nuttx.Fs

open SiblingTree SiblingTree.Forest

variable {cfg : Config} {h : Heap} {root : Addr} {leads : List UInt8 → Addr → Prop}
  {linktarget : Addr → Option Found} {found : Found}

variable {a b : Addr} {inode : Inode} {name : List UInt8} {nofollow : Bool} {target : Found}

theorem Hops.snoc {k : Nat} {c : Addr} {link : List UInt8}
    (hhops : Hops h leads k a b) (hnode : h b = some inode) (hlink : inode.link? = some link)
    (hleads : leads link c) : Hops h leads (k + 1) a c := by
  induction hhops with
  | stay a => exact .hop hnode hlink hleads (.stay c)
  | hop ha hl hlead _ ih => exact .hop ha hl hlead (ih hnode)

theorem Hops.mono {leads' : List UInt8 → Addr → Prop} (hle : ∀ path a, leads path a → leads' path a)
    {k : Nat} (hhops : Hops h leads k a b) : Hops h leads' k a b := by
  induction hhops with
  | stay a => exact .stay a
  | hop ha hl hlead _ ih => exact .hop ha hl (hle _ _ hlead) ih

theorem Meets.mono {leads' : List UInt8 → Addr → Prop} (hle : ∀ path a, leads path a → leads' path a)
    {path rest : List UInt8} (hmeets : Meets cfg h root leads path a rest) :
    Meets cfg h root leads' path a rest := by
  induction hmeets with
  | root hhead => exact .root hhead
  | down _ hrest hcont hchild hnode hname ih =>
    obtain ⟨k, inode, hk, hhops, hb⟩ := hcont
    exact .down ih hrest ⟨k, inode, hk, hhops.mono hle, hb⟩ hchild hnode hname

theorem leadsTo_of_meets {path : List UInt8}
    (hmeets : Meets cfg h root (LeadsTo cfg h root) path a []) (hnode : h a = some inode)
    (hmount : inode.isMountpt = false) : LeadsTo cfg h root path a := by
  intro leads hclosed
  refine hclosed path a inode (hmeets.mono fun q b hq => ?_) hnode hmount
  exact hq leads hclosed

theorem isMountpt_of_link {link : List UInt8} (hlink : inode.link? = some link) :
    inode.isMountpt = false := by
  unfold Inode.link? at hlink
  unfold Inode.isMountpt
  cases htype : inode.iType with
  | softlink link => rfl
  | _ => simp [htype] at hlink

def Reached (h : Heap) (nodes : List Addr) (good : Addr → Prop) (found : Found) : Prop :=
  found.ret = .ok → ∃ a inode, found.desc.node = some a ∧ a ∈ nodes ∧ h a = some inode ∧
    found.desc.relpath.isSome = true ∧ (inode.isMountpt = true ∨ good a)

section LinkTarget

variable {search : Desc → Option Found} {a : Addr} {inode : Inode} {link : List UInt8}

section

variable (hnode : h a = some inode)
include hnode

theorem linktargetLoop_none (hlink : inode.link? = none) (fuel count : Nat)
    (last : Found) : linktargetLoop cfg h search (fuel + 1) count a last = some last := by
  simp [linktargetLoop, hnode, hlink]

theorem linktargetLoop_fails (hlink : inode.link? = some link)
    (hsearch : search (.setup link true) = some found) (hret : found.ret ≠ .ok)
    (fuel count : Nat) (last : Found) :
    linktargetLoop cfg h search (fuel + 1) count a last = some (found.after (last.steps + 1)) := by
  cases hr : found.ret with
  | ok => exact absurd hr hret
  | error e => simp [linktargetLoop, hnode, hlink, hsearch, Found.after, hr]

theorem linktargetLoop_stops (hlink : inode.link? = some link)
    (hsearch : search (.setup link true) = some found) (hret : found.ret = .ok)
    {count : Nat} (hcount : cfg.symloopMax < count + 1) (fuel : Nat) (last : Found) :
    linktargetLoop cfg h search (fuel + 1) count a last =
      some { found.after (last.steps + 1) with ret := .error .eloop } := by
  simp [linktargetLoop, hnode, hlink, hsearch, Found.after, hret, hcount]

theorem linktargetLoop_goes (hlink : inode.link? = some link)
    (hsearch : search (.setup link true) = some found) (hret : found.ret = .ok)
    {b : Addr} (hb : found.desc.node = some b) {count : Nat} (hcount : count + 1 ≤ cfg.symloopMax)
    (fuel : Nat) (last : Found) :
    linktargetLoop cfg h search (fuel + 1) count a last =
      linktargetLoop cfg h search fuel (count + 1) b (found.after (last.steps + 1)) := by
  simp [linktargetLoop, hnode, hlink, hsearch, Found.after, hret, hcount.not_gt, hb]

end

theorem linktargetLoop_reached {nodes : List Addr} {a0 : Addr} {bound : Nat}
    (hsound : ∀ link found, search (.setup link true) = some found →
      Reached h nodes (leads link) found)
    (hreturns : ∀ k b inode link, k ≤ cfg.symloopMax → Hops h leads k a0 b → h b = some inode →
      inode.link? = some link → ∃ found, search (.setup link true) = some found ∧ found.steps ≤ bound)
    {fuel count : Nat} (hfuel : count + fuel = cfg.symloopMax + 1) (hpos : 0 < fuel)
    (hhops : Hops h leads count a0 a) (hnode : h a = some inode) (hlink : inode.link? = some link)
    (last : Found) :
    ∃ r, linktargetLoop cfg h search fuel count a last = some r ∧
      r.steps ≤ last.steps + fuel * (bound + 1) ∧ Reached h nodes (Continues cfg h leads a0) r := by
  induction fuel generalizing count a inode link last with
  | zero => exact absurd hpos (lt_irrefl 0)
  | succ fuel ih =>
    obtain ⟨found, hsearch, hsteps⟩ := hreturns count a inode link (by omega) hhops hnode hlink
    have hcost : last.steps + 1 + found.steps ≤ last.steps + (fuel + 1) * (bound + 1) := by
      rw [Nat.add_mul, Nat.one_mul]
      omega
    by_cases hret : found.ret = .ok
    · by_cases hcount : count + 1 ≤ cfg.symloopMax
      · obtain ⟨b, binode, hb, hmem, hbnode, hrel, hgood⟩ := hsound link found hsearch hret
        rw [linktargetLoop_goes hnode hlink hsearch hret hb hcount]
        obtain ⟨fuel, rfl⟩ := Nat.exists_eq_add_one_of_ne_zero (by omega : fuel ≠ 0)
        cases hblink : binode.link? with
        | none =>
          refine ⟨_, linktargetLoop_none hbnode hblink _ _ _, hcost, fun _ => ?_⟩
          refine ⟨b, binode, hb, hmem, hbnode, hrel, ?_⟩
          cases hmount : binode.isMountpt with
          | true => exact .inl rfl
          | false =>
            have hleads : leads link b := hgood.resolve_left (by simp [hmount])
            exact .inr ⟨count + 1, binode, hcount, hhops.snoc hnode hlink hleads, hbnode, hmount,
              hblink⟩
        | some blink =>
          have hleads : leads link b := hgood.resolve_left (by simp [isMountpt_of_link hblink])
          obtain ⟨r, hr, hrsteps, hreached⟩ := ih (by omega) (Nat.succ_pos fuel)
            (hhops.snoc hnode hlink hleads) hbnode hblink (found.after (last.steps + 1))
          refine ⟨r, hr, hrsteps.trans ?_, hreached⟩
          have hafter : (found.after (last.steps + 1)).steps = last.steps + 1 + found.steps := rfl
          rw [hafter, Nat.add_mul (fuel + 1), Nat.one_mul]
          omega
      · exact ⟨_, linktargetLoop_stops hnode hlink hsearch hret (by omega) fuel last, hcost,
          fun h => absurd h Ret.noConfusion⟩
    · exact ⟨_, linktargetLoop_fails hnode hlink hsearch hret fuel count last, hcost,
        fun h => absurd h hret⟩

theorem linktargetLoop_mono {search' : Desc → Option Found}
    (hle : ∀ desc found, search desc = some found → search' desc = some found) {fuel count : Nat}
    {last r : Found} (hloop : linktargetLoop cfg h search fuel count a last = some r) :
    linktargetLoop cfg h search' fuel count a last = some r := by
  induction fuel generalizing count a last with
  | zero => exact absurd hloop.symm (some_ne_none r)
  | succ fuel ih =>
    cases hnode : h a with
    | none => simp [linktargetLoop, hnode] at hloop
    | some inode =>
      cases hlink : inode.link? with
      | none =>
        rw [linktargetLoop_none hnode hlink] at hloop ⊢
        exact hloop
      | some link =>
        cases hsearch : search (.setup link true) with
        | none => simp [linktargetLoop, hnode, hlink, hsearch] at hloop
        | some found =>
          have hsearch' := hle _ _ hsearch
          by_cases hret : found.ret = .ok
          · by_cases hcount : count + 1 ≤ cfg.symloopMax
            · cases hb : found.desc.node with
              | none =>
                simp [linktargetLoop, hnode, hlink, hsearch, Found.after, hret, hcount.not_gt,
                  hb] at hloop
              | some b =>
                rw [linktargetLoop_goes hnode hlink hsearch hret hb hcount] at hloop
                rw [linktargetLoop_goes hnode hlink hsearch' hret hb hcount]
                exact ih hloop
            · rw [linktargetLoop_stops hnode hlink hsearch hret (by omega)] at hloop
              rw [linktargetLoop_stops hnode hlink hsearch' hret (by omega)]
              exact hloop
          · rw [linktargetLoop_fails hnode hlink hsearch hret] at hloop
            rw [linktargetLoop_fails hnode hlink hsearch' hret]
            exact hloop

theorem inodeLinktarget_reached {nodes : List Addr} {bound : Nat}
    (hsound : ∀ link found, search (.setup link true) = some found →
      Reached h nodes (leads link) found)
    (hnode : h a = some inode) (hlink : inode.link? = some link)
    (hreturns : ∀ k b inode link, k ≤ cfg.symloopMax → Hops h leads k a b → h b = some inode →
      inode.link? = some link → ∃ found, search (.setup link true) = some found ∧ found.steps ≤ bound)
    (desc : Desc) :
    ∃ r, inodeLinktarget cfg h search desc a = some r ∧
      r.steps ≤ (cfg.symloopMax + 1) * (bound + 1) ∧ Reached h nodes (Continues cfg h leads a) r := by
  obtain ⟨r, hr, hsteps, hreached⟩ := linktargetLoop_reached hsound hreturns (Nat.zero_add _)
    (Nat.succ_pos cfg.symloopMax) (.stay a) hnode hlink ⟨.error .enoent, desc, 0⟩
  refine ⟨{ r with desc := { r.desc with nofollow := desc.nofollow } }, ?_, ?_, hreached⟩
  · rw [inodeLinktarget, hr, map_some]
  · simpa using hsteps

end LinkTarget

theorem inodeCompare_eq_zero {nname : List UInt8} (hname : nname = name.takeWhile inName) :
    inodeCompare cfg name nname = 0 := by
  obtain ⟨hless, hgreater⟩ := inodeCompare_spec cfg name nname
  have hirrefl : ¬nameLt cfg nname nname := irrefl_of (nameLt cfg) nname
  rw [← hname] at hless hgreater
  have hle := not_lt.mp (hless.not.mpr hirrefl)
  have hge := not_lt.mp (hgreater.not.mpr hirrefl)
  exact le_antisymm hge hle

section

variable (hnode : h a = some inode) (hcompare : inodeCompare cfg name inode.iName = 0)
  (hnext : inodeNextname name ≠ []) (hlink : inode.link?.isSome = true)
  (htarget : linktarget a = some target)
include hnode hcompare hnext hlink htarget

theorem searchLoop_taken {binode : Inode} (hret : target.ret = .ok) (hb : target.desc.node = some b)
    (hbnode : h b = some binode) (hmount : binode.isMountpt = false) (fuel : Nat)
    (left above : Option Addr) :
    searchLoop cfg h linktarget nofollow (fuel + 1) ⟨name, some a, left, above⟩ =
      (searchLoop cfg h linktarget nofollow fuel ⟨inodeNextname name, binode.iChild, none, some b⟩).map
        (.after (target.steps + 1)) := by
  rw [searchLoop_link hnode hcompare hnext hlink, htarget, bind_some]
  simp [linkTaken, hret, hb, hbnode, hmount]

theorem searchLoop_error {e : Errno} (hret : target.ret = .error e) (fuel : Nat) (left above : Option Addr) :
    searchLoop cfg h linktarget nofollow (fuel + 1) ⟨name, some a, left, above⟩ =
      some ((leave nofollow (inodeNextname name) (some a) left above none (.error e)).after
        target.steps) := by
  rw [searchLoop_link hnode hcompare hnext hlink, htarget, bind_some]
  simp [linkTaken, hret]

theorem searchLoop_mount {binode : Inode} (hret : target.ret = .ok) (hb : target.desc.node = some b)
    (hbnode : h b = some binode) (hmount : binode.isMountpt = true) {relpath : List UInt8}
    (hrelpath : target.desc.relpath = some relpath) (fuel : Nat) (left above : Option Addr) :
    ∃ found, searchLoop cfg h linktarget nofollow (fuel + 1) ⟨name, some a, left, above⟩ = some found ∧
      found.steps = target.steps + 1 ∧
      (found.ret = .ok → found.desc.node = some b ∧ found.desc.relpath.isSome = true) := by
  have hba : b ≠ a := by
    rintro rfl
    obtain rfl : inode = binode := Option.some.inj (hnode.symm.trans hbnode)
    obtain ⟨link, hsome⟩ := isSome_iff_exists.mp hlink
    exact Bool.false_ne_true ((isMountpt_of_link hsome).symm.trans hmount)
  let left' := target.desc.peer
  let above' := target.desc.parent
  let buffer := relpath ++ slash :: inodeNextname name
  rw [searchLoop_link hnode hcompare hnext hlink, htarget, bind_some]
  by_cases hnil : relpath = []
  · refine ⟨(leave nofollow (inodeNextname name) (some b) left' above' (some (inodeNextname name)) .ok).after
      target.steps, ?_, rfl, fun _ => ⟨rfl, rfl⟩⟩
    simp [linkTaken, hret, hb, hbnode, hba, hmount, hrelpath, hnil, left', above']
  cases hmem : cfg.asprintf buffer with
  | true =>
    refine ⟨(leave nofollow (inodeNextname name) (some b) left' above' (some buffer) .ok).after
      target.steps, ?_, rfl, fun _ => ⟨rfl, rfl⟩⟩
    simp [linkTaken, hret, hb, hbnode, hba, hmount, hrelpath, hnil, left', above', buffer, hmem]
  | false =>
    refine ⟨(leave nofollow (inodeNextname name) (some b) left' above' none (.error .enomem)).after
      target.steps, ?_, rfl, fun hok => absurd hok Ret.noConfusion⟩
    simp [linkTaken, hret, hb, hbnode, hba, hmount, hrelpath, hnil, left', above', buffer, hmem]

end

section Loop

variable {t : Tree} {path : List UInt8} {linktarget : Addr → Option Found} {nofollow : Bool}

theorem searchLoop_reached (hstands : Stands cfg (fun _ => True) h root t) {cost : Nat}
    (htarget : ∀ a rest inode, Meets cfg h root leads path a rest → rest ≠ [] → a ∈ root :: t.nodes →
      h a = some inode → inode.link?.isSome = true → ∃ r, linktarget a = some r ∧ r.steps ≤ cost ∧
        Reached h (root :: t.nodes) (Continues cfg h leads a) r) {m : Nat} {name : List UInt8} {a : Addr}
    {inode : Inode} (hnode : h a = some inode) (hcompare : inodeCompare cfg name inode.iName = 0)
    (hmem : a ∈ root :: t.nodes) (hmeets : Meets cfg h root leads path a (inodeNextname name))
    (hm : (components (inodeNextname name)).length ≤ m) (left above : Option Addr) {fuel : Nat}
    (hfuel : (m + 1) * (t.nodes.length + 2) ≤ fuel) :
    ∃ found, searchLoop cfg h linktarget nofollow fuel ⟨name, some a, left, above⟩ = some found ∧
      found.steps ≤ (m + 1) * (t.nodes.length + 2 + cost) ∧
      Reached h (root :: t.nodes) (Meets cfg h root leads path · []) found := by
  induction m generalizing name a inode left above fuel with
  | zero =>
    have hend : inodeNextname name = [] := by
      rw [← components_eq_nil (atName_nextname name)]
      exact List.eq_nil_of_length_eq_zero (Nat.le_zero.mp hm)
    obtain ⟨fuel, rfl⟩ := Nat.exists_eq_add_one_of_ne_zero (by omega : fuel ≠ 0)
    refine ⟨_, searchLoop_end hnode hcompare (.inl hend) fuel left above, ?_, fun _ => ?_⟩
    · simp only [leave]
      omega
    · exact ⟨a, inode, rfl, hmem, hnode, rfl, .inr (hend ▸ hmeets)⟩
  | succ m ih =>
    have hmul : (m + 1 + 1) * (t.nodes.length + 2) =
        (m + 1) * (t.nodes.length + 2) + (t.nodes.length + 2) := Nat.succ_mul _ _
    have hmul' : (m + 1 + 1) * (t.nodes.length + 2 + cost) =
        (m + 1) * (t.nodes.length + 2 + cost) + (t.nodes.length + 2 + cost) := Nat.succ_mul _ _
    obtain ⟨fuel, rfl⟩ := Nat.exists_eq_add_one_of_ne_zero (by omega : fuel ≠ 0)
    by_cases hend : inodeNextname name = [] ∨ inode.isMountpt = true
    · refine ⟨_, searchLoop_end hnode hcompare hend fuel left above, ?_, fun _ => ?_⟩
      · simp only [leave]
        omega
      · refine ⟨a, inode, rfl, hmem, hnode, rfl, ?_⟩
        exact hend.symm.imp_right fun (hnil : inodeNextname name = []) => hnil ▸ hmeets
    obtain ⟨hnext, hmount⟩ := not_or.mp hend
    -- the level below the node `b` at which the search goes on
    have hgo : ∀ b binode, h b = some binode → Continues cfg h leads a b → b ∈ root :: t.nodes →
        ∃ found, searchLoop cfg h linktarget nofollow fuel
            ⟨inodeNextname name, binode.iChild, none, some b⟩ = some found ∧
          found.steps ≤ t.nodes.length + 1 + (m + 1) * (t.nodes.length + 2 + cost) ∧
          Reached h (root :: t.nodes) (Meets cfg h root leads path · []) found := by
      intro b binode hb hcont hbmem
      obtain ⟨u, binode', hb', -, hchild, hu, hasc, hsub, hlen⟩ := tree_below hstands hbmem
      obtain rfl : binode = binode' := Option.some.inj (hb.symm.trans hb')
      rw [hchild]
      rcases searchLoop_level cfg linktarget nofollow hu (inodeNextname name) none (some b) with
        ⟨k, left', hk, -, hloop⟩ | ⟨k, left', c, hk, hhas, hloop⟩
      · refine ⟨_, (hloop fuel).trans (if_neg (by omega)), ?_, fun hok => absurd hok Ret.noConfusion⟩
        simp only [leave, Found.after]
        omega
      obtain ⟨cinode, hc, hcname⟩ := name_of_has hu hhas
      have hcchild : Child h b c :=
        child_of_has hu (fun y hy => .first hb (hchild.trans hy)) hhas
      have hcomps := components_cons (atName_nextname name) hnext
      rw [hcomps, List.length_cons] at hm
      obtain ⟨found, hfound, hsteps, hreached⟩ := ih hc (inodeCompare_eq_zero hcname)
        (List.mem_cons_of_mem _ (hsub hhas.mem_nodes))
        (.down hmeets hnext hcont hcchild hc hcname) (Nat.le_of_succ_le_succ hm) left' (some b)
        (by omega : _ ≤ fuel - k)
      refine ⟨found.after k, ?_, ?_, hreached⟩
      · rw [hloop, if_neg (by omega), hfound, map_some]
      · simp only [Found.after]
        omega
    cases hlink : inode.link? with
    | none =>
      have hcont : Continues cfg h leads a a :=
        ⟨0, inode, Nat.zero_le _, .stay a, hnode, Bool.eq_false_iff.mpr hmount, hlink⟩
      obtain ⟨found, hfound, hsteps, hreached⟩ := hgo a inode hnode hcont hmem
      refine ⟨found.after 1, ?_, ?_, hreached⟩
      · rw [searchLoop_down hnode hcompare hnext (Bool.eq_false_iff.mpr hmount) hlink, hfound,
          map_some]
      · simp only [Found.after]
        omega
    | some link =>
      have hsome : inode.link?.isSome = true := by rw [hlink]; rfl
      obtain ⟨target, htgt, hcost, htreached⟩ := htarget a _ inode hmeets hnext hmem hnode hsome
      cases hret : target.ret with
      | error e =>
        refine ⟨_, searchLoop_error hnode hcompare hnext hsome htgt hret fuel left above, ?_,
          fun hok => absurd hok Ret.noConfusion⟩
        simp only [leave, Found.after]
        omega
      | ok =>
        obtain ⟨b, binode, hb, hbmem, hbnode, hrel, hgood⟩ := htreached hret
        cases hbmount : binode.isMountpt with
        | true =>
          obtain ⟨relpath, hrelpath⟩ := isSome_iff_exists.mp hrel
          obtain ⟨found, hfound, hsteps, hleft⟩ := searchLoop_mount hnode hcompare hnext hsome htgt
            hret hb hbnode hbmount hrelpath fuel left above
          refine ⟨found, hfound, by omega, fun hok => ?_⟩
          exact ⟨b, binode, (hleft hok).1, hbmem, hbnode, (hleft hok).2, .inl hbmount⟩
        | false =>
          obtain ⟨found, hfound, hsteps, hreached⟩ :=
            hgo b binode hbnode (hgood.resolve_left (by simp [hbmount])) hbmem
          refine ⟨found.after (target.steps + 1), ?_, ?_, hreached⟩
          · rw [searchLoop_taken hnode hcompare hnext hsome htgt hret hb hbnode hbmount, hfound,
              map_some]
          · simp only [Found.after]
            omega

end Loop

end Nuttx.Fs
