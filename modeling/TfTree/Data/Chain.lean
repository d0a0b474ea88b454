import Mathlib
import TfTree.Data.Rooted

/-!
# Cycles of links

A partial function `next` gives every point at most one link. Two ways to find out whether
its links close a cycle: to follow them from every point, noting where the walk has been,
and to add them one at a time to a forest, asking each time whether the new one leads back.

Results:
* `firstRepeat_some`, `firstRepeat_none`: what a walk that ends has found.
* `firstRepeat_returns`, `searchRepeat_spec`: a walk that may go on for longer than there
  are points with a link ends; the search finds a cycle exactly if there is one.
* `exists_closes_iff`: among links of different points some link leads back to its own
  point when it is added exactly if the links close a cycle.
-/

namespace TfTree

variable {α : Type}

/-! ## Walks that note where they have been -/

section Walk

variable [DecidableEq α]

/-- Follow `next` from `x`: the first point that comes again, or the end of the links;
    `none` when the walk is longer than `fuel`. -/
def firstRepeat (next : α → Option α) : ℕ → List α → α → Option (Option α)
  | 0, _, _ => none
  | fuel + 1, seen, x =>
    match next x with
    | none => some none
    | some y => if x ∈ seen then some (some x) else firstRepeat next fuel (x :: seen) y

/-- The first walk of the list that comes to a point again. -/
def searchRepeat (next : α → Option α) (fuel : ℕ) : List α → Option (Option α)
  | [] => some none
  | x :: xs =>
    match firstRepeat next fuel [] x with
    | none => none
    | some (some c) => some (some c)
    | some none => searchRepeat next fuel xs

/-- `y` follows `x`. -/
def Follows (next : α → Option α) (x y : α) : Prop := next x = some y

/-- The links lead from `c` back to it. -/
def OnCycle (next : α → Option α) (c : α) : Prop := Relation.TransGen (Follows next) c c

variable {next : α → Option α} {fuel : ℕ} {seen xs : List α} {x y c : α}

theorem firstRepeat_succ : firstRepeat next (fuel + 1) seen x =
    match next x with
    | none => some none
    | some y => if x ∈ seen then some (some x) else firstRepeat next fuel (x :: seen) y := rfl

theorem searchRepeat_cons : searchRepeat next fuel (x :: xs) =
    match firstRepeat next fuel [] x with
    | none => none
    | some (some c) => some (some c)
    | some none => searchRepeat next fuel xs := rfl

/-- A walk that comes to a point again has gone round a cycle. -/
theorem firstRepeat_some (hseen : ∀ s ∈ seen, Relation.TransGen (Follows next) s x)
    (h : firstRepeat next fuel seen x = some (some c)) : OnCycle next c := by
  induction fuel generalizing seen x with
  | zero => cases h
  | succ fuel ih =>
    rw [firstRepeat_succ] at h
    cases hx : next x with
    | none =>
      rw [hx] at h
      cases h
    | some y =>
      rw [hx] at h
      dsimp only at h
      by_cases hmem : x ∈ seen
      · rw [if_pos hmem] at h
        obtain rfl := Option.some_inj.mp (Option.some_inj.mp h)
        exact hseen _ hmem
      · rw [if_neg hmem] at h
        refine ih (fun s hs => ?_) h
        rcases List.mem_cons.mp hs with rfl | hs
        · exact .single hx
        · exact (hseen s hs).tail hx

/-- A point whose walk ends is on no cycle, and neither is a point it leads to. -/
theorem firstRepeat_none (h : firstRepeat next fuel seen x = some none)
    (hc : Relation.ReflTransGen (Follows next) x c) : ¬ OnCycle next c := by
  induction fuel generalizing seen x with
  | zero => cases h
  | succ fuel ih =>
    rw [firstRepeat_succ] at h
    cases hx : next x with
    | none =>
      intro hcycle
      rcases hc.cases_head with rfl | ⟨y, hy, -⟩
      · obtain ⟨y, hy, -⟩ := Relation.TransGen.head'_iff.mp hcycle
        cases hx.symm.trans hy
      · cases hx.symm.trans hy
    | some y =>
      rw [hx] at h
      dsimp only at h
      by_cases hmem : x ∈ seen
      · rw [if_pos hmem] at h
        cases h
      · rw [if_neg hmem] at h
        intro hcycle
        rcases hc.cases_head with rfl | ⟨y', hy', hrest⟩
        · -- the cycle of `x` passes through the next point
          obtain ⟨y', hy', hback⟩ := Relation.TransGen.head'_iff.mp hcycle
          obtain rfl : y = y' := Option.some_inj.mp (hx.symm.trans hy')
          exact ih h hback hcycle
        · obtain rfl : y = y' := Option.some_inj.mp (hx.symm.trans hy')
          exact ih h hrest hcycle

/-- A walk visits every point with a link at most once before it ends. -/
theorem firstRepeat_returns {s : Finset α} (hs : ∀ x y, next x = some y → x ∈ s)
    (hnodup : seen.Nodup) (hsub : ∀ x ∈ seen, x ∈ s) (hfuel : s.card < fuel + seen.length) :
    ∃ r, firstRepeat next fuel seen x = some r := by
  induction fuel generalizing seen x with
  | zero =>
    have hle : seen.toFinset.card ≤ s.card :=
      Finset.card_le_card fun x hx => hsub x (List.mem_toFinset.mp hx)
    rw [List.toFinset_card_of_nodup hnodup] at hle
    omega
  | succ fuel ih =>
    rw [firstRepeat_succ]
    cases hx : next x with
    | none => exact ⟨none, rfl⟩
    | some y =>
      dsimp only
      by_cases hmem : x ∈ seen
      · rw [if_pos hmem]
        exact ⟨some x, rfl⟩
      · rw [if_neg hmem]
        refine ih (List.nodup_cons.mpr ⟨hmem, hnodup⟩) (fun z hz => ?_) ?_
        · rcases List.mem_cons.mp hz with rfl | hz
          · exact hs _ _ hx
          · exact hsub z hz
        · rw [List.length_cons]
          omega

/-- More turns change nothing of a walk that has ended. -/
theorem firstRepeat_mono {r : Option α} {fuel' : ℕ} (h : firstRepeat next fuel seen x = some r)
    (hle : fuel ≤ fuel') : firstRepeat next fuel' seen x = some r := by
  induction fuel generalizing fuel' seen x with
  | zero => cases h
  | succ fuel ih =>
    obtain ⟨k, rfl⟩ := Nat.exists_eq_add_of_le' hle
    rw [← Nat.add_assoc, firstRepeat_succ]
    rw [firstRepeat_succ] at h
    cases hx : next x with
    | none =>
      rw [hx] at h
      exact h
    | some y =>
      rw [hx] at h
      dsimp only at h ⊢
      by_cases hmem : x ∈ seen
      · rwa [if_pos hmem] at h ⊢
      · rw [if_neg hmem] at h ⊢
        exact ih h (Nat.le_add_left fuel k)

/-- More turns change nothing of a search that has ended. -/
theorem searchRepeat_mono {r : Option α} {fuel' : ℕ} (h : searchRepeat next fuel xs = some r)
    (hle : fuel ≤ fuel') : searchRepeat next fuel' xs = some r := by
  induction xs with
  | nil => exact h
  | cons x xs ih =>
    rw [searchRepeat_cons] at h ⊢
    cases hx : firstRepeat next fuel [] x with
    | none =>
      rw [hx] at h
      cases h
    | some r' =>
      rw [hx] at h
      rw [firstRepeat_mono hx hle]
      cases r' with
      | some c => exact h
      | none => exact ih h

/-- The search from all the points with a link finds a point on a cycle exactly if there is
    one. -/
theorem searchRepeat_spec {s : Finset α} (hs : ∀ x y, next x = some y → x ∈ s)
    (hfuel : s.card < fuel) (xs : List α) :
    ∃ r, searchRepeat next fuel xs = some r ∧ (∀ c, r = some c → OnCycle next c) ∧
      (r = none → ∀ x ∈ xs, ¬ OnCycle next x) := by
  induction xs with
  | nil => exact ⟨none, rfl, nofun, fun _ _ hx => absurd hx List.not_mem_nil⟩
  | cons x xs ih =>
    have hempty : ∀ x ∈ ([] : List α), x ∈ s := fun _ hx => absurd hx List.not_mem_nil
    obtain ⟨r, hr⟩ := firstRepeat_returns (x := x) hs List.nodup_nil hempty
      (show s.card < fuel + ([] : List α).length from hfuel)
    rw [searchRepeat_cons, hr]
    cases r with
    | some c =>
      refine ⟨some c, rfl, fun c' hc' => ?_, nofun⟩
      cases hc'
      exact firstRepeat_some (fun _ hs => absurd hs List.not_mem_nil) hr
    | none =>
      obtain ⟨r', hsearch, hsome, hnone⟩ := ih
      refine ⟨r', hsearch, hsome, fun hr' y hy => ?_⟩
      rcases List.mem_cons.mp hy with rfl | hy
      · exact firstRepeat_none hr .refl
      · exact hnone hr' y hy

end Walk

/-! ## Links added one at a time -/

section Links

variable [DecidableEq α] {r : α} {links done rest : List (α × α)} {x y c q : α}

/-- The parent function of the links, from a forest of roots; `r` stands above all roots. -/
def linked (r : α) (links : List (α × α)) : α → α :=
  links.foldl (fun p l => Function.update p l.1 l.2) fun _ => r

/-- The new link leads back to its own point. -/
def LinkCloses (r : α) (done : List (α × α)) (l : α × α) : Prop :=
  ∃ n, (linked r done)^[n] l.2 = l.1

@[simp] theorem linked_nil : linked r [] = fun _ => r := rfl

theorem linked_concat (l : α × α) :
    linked r (done ++ [l]) = Function.update (linked r done) l.1 l.2 := by
  unfold linked
  rw [List.foldl_concat]

/-- A point without a link is a root. -/
theorem linked_of_fresh (h : ∀ l ∈ links, l.1 ≠ x) : linked r links x = r := by
  induction links using List.reverseRecOn with
  | nil => rfl
  | append_singleton done l ih =>
    rw [linked_concat, Function.update_of_ne (h l (by simp)).symm]
    exact ih fun l' hl' => h l' (List.mem_append_left _ hl')

/-- A parent other than `r` comes from a link. -/
theorem mem_of_linked (h : linked r links x = y) (hy : y ≠ r) : (x, y) ∈ links := by
  induction links using List.reverseRecOn with
  | nil => exact absurd h.symm hy
  | append_singleton done l ih =>
    rw [linked_concat] at h
    by_cases hx : x = l.1
    · rw [hx, Function.update_self] at h
      rw [hx, ← h]
      exact List.mem_append_right _ (List.mem_singleton.mpr rfl)
    · rw [Function.update_of_ne hx] at h
      exact List.mem_append_left _ (ih h)

/-- Among links of different points every link is a parent. -/
theorem linked_of_mem (hnodup : (links.map Prod.fst).Nodup) (h : (x, y) ∈ links) :
    linked r links x = y := by
  induction links using List.reverseRecOn with
  | nil => cases h
  | append_singleton done l ih =>
    rw [List.map_append, List.nodup_append] at hnodup
    obtain ⟨hdone, -, hfresh⟩ := hnodup
    rw [linked_concat]
    rcases List.mem_append.mp h with hmem | hlast
    · have hne : x ≠ l.1 := hfresh x (List.mem_map_of_mem hmem) l.1 (by simp)
      rw [Function.update_of_ne hne]
      exact ih hdone hmem
    · obtain rfl := List.mem_singleton.mp hlast
      rw [Function.update_self]

/-- A walk to a point other than `r` runs along links. -/
theorem reaches_of_iterate (hroot : ∀ l ∈ links, l.1 ≠ r) (hc : c ≠ r) {n : ℕ}
    (h : (linked r links)^[n] x = c) :
    Relation.ReflTransGen (fun x y => (x, y) ∈ links) x c := by
  induction n generalizing x with
  | zero =>
    subst h
    exact .refl
  | succ n ih =>
    rw [Function.iterate_succ_apply] at h
    refine .head (mem_of_linked rfl fun hr => ?_) (ih h)
    rw [hr, iterate_root (linked_of_fresh hroot)] at h
    exact hc h.symm

/-- Along the links of different points the parent function walks. -/
theorem iterate_of_reaches (hnodup : (links.map Prod.fst).Nodup)
    (h : Relation.TransGen (fun x y => (x, y) ∈ links) x c) :
    ∃ n, (linked r links)^[n + 1] x = c := by
  induction h with
  | single h => exact ⟨0, linked_of_mem hnodup h⟩
  | tail _ h ih =>
    obtain ⟨n, hn⟩ := ih
    refine ⟨n + 1, ?_⟩
    rw [Function.iterate_succ_apply', hn]
    exact linked_of_mem hnodup h

/-- Links that never lead back keep every point rooted. -/
theorem rooted_linked (hroot : ∀ l ∈ links, l.1 ≠ r)
    (h : ∀ done l rest, links = done ++ l :: rest → ¬ LinkCloses r done l) (x : α) :
    Rooted (linked r links) r x := by
  induction links using List.reverseRecOn generalizing x with
  | nil => exact ⟨1, rfl⟩
  | append_singleton done l ih =>
    have hall : ∀ x, Rooted (linked r done) r x := by
      refine ih (fun l' hl' => hroot l' (List.mem_append_left _ hl')) fun done' l' rest' he => ?_
      refine h done' l' (rest' ++ [l]) ?_
      rw [he, List.append_assoc, List.cons_append]
    rw [linked_concat]
    refine Rooted.update (hall l.2) (fun n hn => ?_) (hall x)
    exact h done l [] rfl ⟨n, hn⟩

omit [DecidableEq α] in
/-- A point that its links lead back to is not rooted. -/
theorem not_rooted_of_cycle {p : α → α} (hp : p r = r) (hc : c ≠ r) {n : ℕ}
    (h : p^[n + 1] c = c) : ¬ Rooted p r c := by
  rintro ⟨k, hk⟩
  have hback : p^[k * (n + 1)] c = c := by
    rw [Nat.mul_comm, Function.iterate_mul]
    exact Function.iterate_fixed h k
  have hend : p^[k * (n + 1)] c = r := by
    rw [Nat.mul_succ, Function.iterate_add_apply, hk, iterate_root hp]
  exact hc (hback.symm.trans hend)

/-- **Main lemma.** Links of different points close a cycle exactly if one of them leads
    back when it is added. -/
theorem exists_closes_iff (hroot : ∀ l ∈ links, l.1 ≠ r) (hnodup : (links.map Prod.fst).Nodup) :
    (∃ done l rest, links = done ++ l :: rest ∧ LinkCloses r done l) ↔
      ∃ c, Relation.TransGen (fun x y => (x, y) ∈ links) c c := by
  constructor
  · rintro ⟨done, l, rest, rfl, n, hn⟩
    have hback : Relation.ReflTransGen (fun x y => (x, y) ∈ done) l.2 l.1 :=
      reaches_of_iterate (fun l' hl' => hroot l' (List.mem_append_left _ hl'))
        (hroot l (by simp)) hn
    have hlink : (l.1, l.2) ∈ done ++ l :: rest := by simp
    refine ⟨l.1, Relation.TransGen.head' hlink (hback.lift id fun x y hxy => ?_)⟩
    exact List.mem_append_left _ hxy
  · rintro ⟨c, hc⟩
    by_contra hnone
    have hrooted : Rooted (linked r links) r c :=
      rooted_linked hroot (fun done l rest he hclose => hnone ⟨done, l, rest, he, hclose⟩) c
    obtain ⟨n, hn⟩ := iterate_of_reaches (r := r) hnodup hc
    obtain ⟨y, hy, -⟩ := Relation.TransGen.head'_iff.mp hc
    exact not_rooted_of_cycle (linked_of_fresh hroot) (hroot _ hy) hn hrooted

end Links

/-! ## Renamed points -/

section Rename

variable {β : Type} {f : α → β} {links : List (α × α)} {s : Set α} {x y : β} {a b : α}

theorem reaches_mem (hs : ∀ l ∈ links, l.1 ∈ s ∧ l.2 ∈ s)
    (h : Relation.TransGen (fun x y => (x, y) ∈ links) a b) : a ∈ s ∧ b ∈ s := by
  induction h with
  | single h => exact hs _ h
  | tail _ h ih => exact ⟨ih.1, (hs _ h).2⟩

/-- The renamed links lead where the links lead. -/
theorem reaches_of_renamed (hf : Set.InjOn f s) (hs : ∀ l ∈ links, l.1 ∈ s ∧ l.2 ∈ s)
    (h : Relation.TransGen (fun x y => (x, y) ∈ links.map (Prod.map f f)) x y) :
    ∃ a b, f a = x ∧ f b = y ∧ Relation.TransGen (fun x y => (x, y) ∈ links) a b := by
  have hlink : ∀ {x y}, (x, y) ∈ links.map (Prod.map f f) →
      ∃ a b, f a = x ∧ f b = y ∧ (a, b) ∈ links := by
    intro x y hmem
    obtain ⟨⟨a, b⟩, hmem, he⟩ := List.mem_map.mp hmem
    obtain ⟨ha, hb⟩ := Prod.mk.inj he
    exact ⟨a, b, ha, hb, hmem⟩
  induction h with
  | single h =>
    obtain ⟨a, b, ha, hb, hmem⟩ := hlink h
    exact ⟨a, b, ha, hb, .single hmem⟩
  | tail _ h ih =>
    obtain ⟨a, b, ha, hb, hreach⟩ := ih
    obtain ⟨b', c, hb', hc, hmem⟩ := hlink h
    obtain rfl := hf (reaches_mem hs hreach).2 (hs _ hmem).1 (hb.trans hb'.symm)
    exact ⟨a, c, ha, hc, hreach.tail hmem⟩

/-- Renaming the points of the links neither opens nor closes a cycle. -/
theorem exists_cycle_renamed_iff (hf : Set.InjOn f s) (hs : ∀ l ∈ links, l.1 ∈ s ∧ l.2 ∈ s) :
    (∃ c, Relation.TransGen (fun x y => (x, y) ∈ links.map (Prod.map f f)) c c) ↔
      ∃ c, Relation.TransGen (fun x y => (x, y) ∈ links) c c := by
  constructor
  · rintro ⟨c, hc⟩
    obtain ⟨a, b, ha, hb, hreach⟩ := reaches_of_renamed hf hs hc
    obtain ⟨hma, hmb⟩ := reaches_mem hs hreach
    obtain rfl := hf hma hmb (ha.trans hb.symm)
    exact ⟨a, hreach⟩
  · rintro ⟨c, hc⟩
    exact ⟨f c, hc.lift f fun x y hxy => List.mem_map.mpr ⟨(x, y), hxy, rfl⟩⟩

end Rename

end TfTree
