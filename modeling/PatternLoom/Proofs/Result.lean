import Mathlib
import PatternLoom.Failure

/-! Results of steps one after the other. A sequence fails with the first step that fails,
and what came before it has succeeded. -/

namespace PatternLoom

theorem bind_eq_ok {α β : Type} {x : Result α} {f : α → Result β} {b : β} :
    x >>= f = .ok b ↔ ∃ a, x = .ok a ∧ f a = .ok b := by
  cases x <;> simp [bind, Except.bind]

theorem bind_eq_error {α β : Type} {x : Result α} {f : α → Result β} {e : Failure} :
    x >>= f = .error e ↔ x = .error e ∨ ∃ a, x = .ok a ∧ f a = .error e := by
  cases x <;> simp [bind, Except.bind]

theorem exists_bind_eq_ok {α β : Type} {x : Result α} {f : α → Result β} (hx : ∃ a, x = .ok a)
    (hf : ∀ a, ∃ b, f a = .ok b) : ∃ b, x >>= f = .ok b := by
  obtain ⟨a, rfl⟩ := hx
  exact hf a

theorem bind_congr_ok {α β : Type} {x : Result α} {f g : α → Result β}
    (h : ∀ a, x = .ok a → f a = g a) : x >>= f = x >>= g := by
  cases x with
  | ok a => exact h a rfl
  | error e => rfl

theorem throw_bind {α β : Type} (e : Failure) (f : α → Result β) :
    (throw e : Result α) >>= f = throw e := rfl

theorem pure_eq_ok {α : Type} {a b : α} : (pure a : Result α) = .ok b ↔ a = b := by
  simp [pure, Except.pure]

theorem eq_ok_of_isOk {α : Type} {x : Result α} (h : x.isOk) : ∃ a, x = .ok a := by
  cases x with
  | ok a => exact ⟨a, rfl⟩
  | error e => cases h

/-- The failure of a step that fails. -/
def failure? {α : Type} : Result α → Option Failure
  | .ok _ => none
  | .error e => some e

theorem eq_error_of_failure? {α : Type} {x : Result α} {e : Failure} (h : failure? x = some e) :
    x = .error e := by
  cases x with
  | ok a => cases h
  | error e' =>
    rw [Option.some.inj h]

theorem mapM_eq_ok {α β : Type} {f : α → Result β} {xs : List α} {ys : List β} :
    xs.mapM f = .ok ys ↔ List.Forall₂ (fun x y => f x = .ok y) xs ys := by
  induction xs generalizing ys with
  | nil =>
    rw [List.mapM_nil, pure_eq_ok, List.forall₂_nil_left_iff, eq_comm]
  | cons x xs ih =>
    simp only [List.mapM_cons, bind_eq_ok, pure_eq_ok, ih, List.forall₂_cons_left_iff]
    constructor
    · rintro ⟨y, hy, ys', hys, rfl⟩
      exact ⟨y, ys', hy, hys, rfl⟩
    · rintro ⟨y, ys', hy, hys, rfl⟩
      exact ⟨y, hy, ys', hys, rfl⟩

theorem mapM_congr {α β : Type} {f g : α → Result β} {xs : List α} (h : ∀ x ∈ xs, f x = g x) :
    xs.mapM f = xs.mapM g := by
  induction xs with
  | nil => rfl
  | cons x xs ih =>
    obtain ⟨hx, hxs⟩ := List.forall_mem_cons.mp h
    rw [List.mapM_cons, List.mapM_cons, hx, ih hxs]

/-- Some member has `Q`, and all before it have `P`. -/
def StopsAt {α : Type} (P Q : α → Prop) (xs : List α) : Prop :=
  ∃ before x after, xs = before ++ x :: after ∧ (∀ y ∈ before, P y) ∧ Q x

theorem not_stopsAt_nil {α : Type} {P Q : α → Prop} : ¬ StopsAt P Q [] := by
  rintro ⟨before, x, after, h, -⟩
  exact List.append_ne_nil_of_right_ne_nil before (List.cons_ne_nil x after) h.symm

theorem stopsAt_cons {α : Type} {P Q : α → Prop} {x : α} {xs : List α} :
    StopsAt P Q (x :: xs) ↔ Q x ∨ P x ∧ StopsAt P Q xs := by
  constructor
  · rintro ⟨before, y, after, he, hbefore, hy⟩
    cases before with
    | nil =>
      obtain ⟨rfl, rfl⟩ := List.cons.inj he
      exact .inl hy
    | cons z before =>
      obtain ⟨rfl, rfl⟩ := List.cons.inj he
      obtain ⟨hx, hbefore⟩ := List.forall_mem_cons.mp hbefore
      exact .inr ⟨hx, before, y, after, rfl, hbefore, hy⟩
  · rintro (hx | ⟨hx, before, y, after, rfl, hbefore, hy⟩)
    · exact ⟨[], x, xs, rfl, List.forall_mem_nil _, hx⟩
    · exact ⟨x :: before, y, after, rfl, List.forall_mem_cons.mpr ⟨hx, hbefore⟩, hy⟩

theorem mapM_eq_error {α β : Type} {f : α → Result β} {xs : List α} {e : Failure} :
    xs.mapM f = .error e ↔ StopsAt (fun x => ∃ y, f x = .ok y) (fun x => f x = .error e) xs := by
  induction xs with
  | nil => exact iff_of_false nofun not_stopsAt_nil
  | cons x xs ih =>
    simp only [List.mapM_cons, bind_eq_error, stopsAt_cons, ih, pure, Except.pure, reduceCtorEq,
      and_false, exists_false, or_false, exists_and_right]

theorem exists_mapM_eq_ok {α β : Type} {f : α → Result β} {xs : List α}
    (h : ∀ x ∈ xs, ∃ y, f x = .ok y) : ∃ ys, xs.mapM f = .ok ys := by
  cases hm : xs.mapM f with
  | ok ys => exact ⟨ys, rfl⟩
  | error e =>
    obtain ⟨before, x, after, rfl, _, he⟩ := mapM_eq_error.mp hm
    obtain ⟨y, hy⟩ := h x (by simp)
    rw [hy] at he
    cases he

theorem foldlM_preserves {α β : Type} {f : β → α → Result β} {P : β → Prop} {xs : List α} {b b' : β}
    (h : xs.foldlM f b = .ok b') (hb : P b)
    (hstep : ∀ c, ∀ a ∈ xs, ∀ c', P c → f c a = .ok c' → P c') : P b' := by
  induction xs generalizing b with
  | nil =>
    obtain rfl := pure_eq_ok.mp h
    exact hb
  | cons a xs ih =>
    rw [List.foldlM_cons, bind_eq_ok] at h
    obtain ⟨c, hc, hrest⟩ := h
    exact ih hrest (hstep b a List.mem_cons_self c hb hc)
      fun d a' ha' => hstep d a' (List.mem_cons_of_mem _ ha')

theorem exists_of_forall₂_right {α β : Type} {R : α → β → Prop} {xs : List α} {ys : List β}
    (h : List.Forall₂ R xs ys) {y : β} (hy : y ∈ ys) : ∃ x ∈ xs, R x y := by
  induction h with
  | nil => simp at hy
  | cons hxy _ ih =>
    rcases List.mem_cons.mp hy with rfl | hy
    · exact ⟨_, List.mem_cons_self, hxy⟩
    · obtain ⟨x, hx, hxy⟩ := ih hy
      exact ⟨x, List.mem_cons_of_mem _ hx, hxy⟩

/-- Matches of two lists, where each pair has a third thing that both of it match. -/
theorem exists_forall₂ {α β γ : Type} {R : α → β → Prop} {S : α → γ → Prop} {T : β → γ → Prop}
    {xs : List α} {ys : List β} (h : List.Forall₂ R xs ys)
    (hr : ∀ x ∈ xs, ∀ y, R x y → ∃ z, S x z ∧ T y z) :
    ∃ zs, List.Forall₂ S xs zs ∧ List.Forall₂ T ys zs := by
  induction h with
  | nil => exact ⟨[], .nil, .nil⟩
  | cons hxy _ ih =>
    obtain ⟨hx, hxs⟩ := List.forall_mem_cons.mp hr
    obtain ⟨z, hs, ht⟩ := hx _ hxy
    obtain ⟨zs, hss, hts⟩ := ih hxs
    exact ⟨z :: zs, .cons hs hss, .cons ht hts⟩

theorem exists_forall₂_of_forall {α β : Type} {R : α → β → Prop} {xs : List α}
    (h : ∀ x ∈ xs, ∃ y, R x y) : ∃ ys, List.Forall₂ R xs ys := by
  obtain ⟨ys, hys, _⟩ := exists_forall₂ (S := R) (T := fun _ _ => True)
    (List.forall₂_same.mpr fun x _ => rfl) fun x hx _ _ => (h x hx).imp fun _ hy => ⟨hy, trivial⟩
  exact ⟨ys, hys⟩

theorem forall₂_filterMap {α β : Type} {f : α → Option β} {xs : List α}
    (h : ∀ x ∈ xs, (f x).isSome) : List.Forall₂ (fun x y => f x = some y) xs (xs.filterMap f) := by
  induction xs with
  | nil => exact .nil
  | cons x xs ih =>
    obtain ⟨hx, hxs⟩ := List.forall_mem_cons.mp h
    obtain ⟨y, hy⟩ := Option.isSome_iff_exists.mp hx
    rw [List.filterMap_cons_some hy]
    exact .cons hy (ih hxs)

theorem forall₂_comp {α β γ : Type} {R : α → β → Prop} {S : β → γ → Prop} {xs : List α}
    {ys : List β} {zs : List γ} (hr : List.Forall₂ R xs ys) (hs : List.Forall₂ S ys zs) :
    List.Forall₂ (fun x z => ∃ y, R x y ∧ S y z) xs zs := by
  induction hr generalizing zs with
  | nil =>
    obtain rfl := List.forall₂_nil_left_iff.mp hs
    exact .nil
  | cons hxy _ ih =>
    obtain ⟨z, zs', hyz, hrest, rfl⟩ := List.forall₂_cons_left_iff.mp hs
    exact .cons ⟨_, hxy, hyz⟩ (ih hrest)

theorem map_eq_of_forall₂ {α β γ : Type} {R : α → β → Prop} {f : α → γ} {g : β → γ} {xs : List α}
    {ys : List β} (h : List.Forall₂ R xs ys) (hr : ∀ x y, R x y → g y = f x) :
    ys.map g = xs.map f := by
  induction h with
  | nil => rfl
  | cons hxy _ ih => rw [List.map_cons, List.map_cons, hr _ _ hxy, ih]

theorem countP_eq_of_forall₂ {α β : Type} {R : α → β → Prop} {p : α → Bool} {q : β → Bool}
    {xs : List α} {ys : List β} (h : List.Forall₂ R xs ys) (hr : ∀ x y, R x y → q y = p x) :
    ys.countP q = xs.countP p := by
  have hcount := congrArg (List.countP id) (map_eq_of_forall₂ h hr)
  rwa [List.countP_map, List.countP_map] at hcount

/-- What holds of pairs of one list carries over to its pairs with a list that matches it. -/
theorem pairwise_zip {α β : Type} {R : α → β → Prop} {S : α → α → Prop} {T : α × β → α × β → Prop}
    {xs : List α} {ys : List β} (h : List.Forall₂ R xs ys) (hs : xs.Pairwise S)
    (hst : ∀ a b c d, R a c → R b d → S a b → T (a, c) (b, d)) : (xs.zip ys).Pairwise T := by
  induction h with
  | nil => exact .nil
  | @cons a c xs ys hac hrest ih =>
    obtain ⟨ha, hxs⟩ := List.pairwise_cons.mp hs
    refine List.pairwise_cons.mpr ⟨fun p hp => ?_, ih hxs⟩
    have hmatch := (List.forall₂_iff_zip.mp hrest).2 hp
    exact hst a p.1 c p.2 hac hmatch (ha p.1 (List.of_mem_zip hp).1)

theorem pairwise_of_forall₂ {α β : Type} {R : α → β → Prop} {S : α → α → Prop} {T : β → β → Prop}
    {xs : List α} {ys : List β} (h : List.Forall₂ R xs ys) (hs : xs.Pairwise S)
    (hst : ∀ a b c d, R a c → R b d → S a b → T c d) : ys.Pairwise T := by
  have hmap : (xs.zip ys).map Prod.snd = ys := List.map_snd_zip h.length_eq.ge
  rw [← hmap, List.pairwise_map]
  exact pairwise_zip h hs hst

end PatternLoom
