import Mathlib
import PatternLoom.Proofs.Text.Lexeme

/-! Calls in program text. The arguments of a call are parted by the commas that stand in no
inner brackets, and a reader that counts brackets finds just those that were written. -/

namespace PatternLoom

/-- Every bracket that opens is closed, and none closes that did not open. -/
inductive Balanced : List Lexeme → Prop where
  | nil : Balanced []
  | mark {l : Lexeme} {ls : List Lexeme} (plain : l.isBracket = false) (rest : Balanced ls) :
    Balanced (l :: ls)
  | group {inside ls : List Lexeme} (within : Balanced inside) (rest : Balanced ls) :
    Balanced (.opening :: (inside ++ .closing :: ls))

/-- The arguments up to the bracket that closes the call, and what comes after it, given the
count of inner brackets that are open and what was read of the argument at hand. As a comma
may end the last argument, an empty one is none. -/
def argumentsFrom : Nat → List Lexeme → List Lexeme → Option (List (List Lexeme) × List Lexeme)
  | _, _, [] => none
  | depth, argument, .opening :: ls => argumentsFrom (depth + 1) (argument ++ [.opening]) ls
  | 0, argument, .closing :: ls => some (if argument = [] then [] else [argument], ls)
  | depth + 1, argument, .closing :: ls => argumentsFrom depth (argument ++ [.closing]) ls
  | 0, argument, .comma :: ls =>
    (argumentsFrom 0 [] ls).map fun found => (argument :: found.1, found.2)
  | depth, argument, l :: ls => argumentsFrom depth (argument ++ [l]) ls

/-- The arguments of a call by the name, and what comes after the call. -/
def readCall (name : String) (ls : List Lexeme) : Option (List (List Lexeme) × List Lexeme) :=
  (ls.dropPrefix? (written name.toList ++ [.opening])).bind (argumentsFrom 0 [])

/-- A call as lexemes. -/
def called (name : String) (inside : List Lexeme) : List Lexeme :=
  written name.toList ++ .opening :: (inside ++ [.closing])

/-- Lexemes that are never parted where they stand as an argument. -/
structure Whole (ls : List Lexeme) : Prop where
  balanced : Balanced ls
  passed : ∀ argument rest, argumentsFrom 0 argument (ls ++ rest) =
    argumentsFrom 0 (argument ++ ls) rest

section Brackets

theorem argumentsFrom_opening (depth : Nat) (argument ls : List Lexeme) :
    argumentsFrom depth argument (.opening :: ls) =
      argumentsFrom (depth + 1) (argument ++ [.opening]) ls := rfl

theorem argumentsFrom_closing (depth : Nat) (argument ls : List Lexeme) :
    argumentsFrom (depth + 1) argument (.closing :: ls) =
      argumentsFrom depth (argument ++ [.closing]) ls := rfl

theorem argumentsFrom_end (argument ls : List Lexeme) :
    argumentsFrom 0 argument (.closing :: ls) =
      some (if argument = [] then [] else [argument], ls) := rfl

theorem argumentsFrom_comma (argument ls : List Lexeme) :
    argumentsFrom 0 argument (.comma :: ls) =
      (argumentsFrom 0 [] ls).map fun found => (argument :: found.1, found.2) := rfl

theorem Balanced.append {ls ms : List Lexeme} (hl : Balanced ls) (hm : Balanced ms) :
    Balanced (ls ++ ms) := by
  induction hl with
  | nil => exact hm
  | mark plain _ ih => exact .mark plain ih
  | group within _ _ ih =>
    rw [List.cons_append, List.append_assoc, List.cons_append]
    exact .group within ih

theorem balanced_of_marks {ls : List Lexeme} (h : ∀ l ∈ ls, l.isBracket = false) :
    Balanced ls := by
  induction ls with
  | nil => exact .nil
  | cons l ls ih =>
    obtain ⟨hl, hls⟩ := List.forall_mem_cons.mp h
    exact .mark hl (ih hls)

theorem Balanced.intercalate {lss : List (List Lexeme)} (h : ∀ ls ∈ lss, Balanced ls) :
    Balanced ([.comma].intercalate lss) := by
  induction lss with
  | nil => exact .nil
  | cons ls lss ih =>
    obtain ⟨hls, hlss⟩ := List.forall_mem_cons.mp h
    cases lss with
    | nil => rwa [List.intercalate_singleton]
    | cons ms lss =>
      rw [List.intercalate_cons_cons, List.append_assoc]
      exact hls.append (.mark rfl (ih hlss))

/-- Inside of brackets nothing parts arguments. -/
theorem Balanced.passed {ls : List Lexeme} (h : Balanced ls) (depth : Nat)
    (argument rest : List Lexeme) : argumentsFrom (depth + 1) argument (ls ++ rest) =
      argumentsFrom (depth + 1) (argument ++ ls) rest := by
  induction h generalizing depth argument rest with
  | nil => simp
  | @mark l ls plain _ ih =>
    have hstep : argumentsFrom (depth + 1) argument (l :: (ls ++ rest)) =
        argumentsFrom (depth + 1) (argument ++ [l]) (ls ++ rest) := by
      cases l with
      | opening => cases plain
      | closing => cases plain
      | _ => rfl
    rw [List.cons_append, hstep, ih, List.append_assoc, List.singleton_append]
  | group _ _ ihInside ihRest =>
    rw [List.cons_append, List.append_assoc, List.cons_append, argumentsFrom_opening, ihInside,
      argumentsFrom_closing, ihRest]
    simp only [List.append_assoc, List.cons_append, List.nil_append]

end Brackets

section Arguments

theorem Whole.append {ls ms : List Lexeme} (hl : Whole ls) (hm : Whole ms) : Whole (ls ++ ms) where
  balanced := hl.balanced.append hm.balanced
  passed argument rest := by
    rw [List.append_assoc, hl.passed, hm.passed, List.append_assoc]

theorem whole_nil : Whole [] := ⟨.nil, fun _ _ => by simp⟩

theorem whole_mark {l : Lexeme} (hbracket : l.isBracket = false) (hcomma : l ≠ .comma) :
    Whole [l] where
  balanced := .mark hbracket .nil
  passed argument rest := by
    cases l with
    | opening => cases hbracket
    | closing => cases hbracket
    | comma => exact absurd rfl hcomma
    | _ => rfl

theorem whole_written (cs : List Char) : Whole (written cs) := by
  induction cs with
  | nil => exact whole_nil
  | cons c cs ih =>
    have hsign : Whole [.sign c] := whole_mark rfl nofun
    exact hsign.append ih

theorem whole_group {inside : List Lexeme} (h : Balanced inside) :
    Whole (.opening :: (inside ++ [.closing])) where
  balanced := .group h .nil
  passed argument rest := by
    rw [List.cons_append, List.append_assoc, List.singleton_append, argumentsFrom_opening,
      h.passed, argumentsFrom_closing]
    simp only [List.append_assoc, List.cons_append, List.nil_append]

theorem whole_called {name : String} {inside : List Lexeme} (h : Balanced inside) :
    Whole (called name inside) := (whole_written _).append (whole_group h)

theorem argumentsFrom_intercalate {lss : List (List Lexeme)} (hne : lss ≠ [])
    (h : ∀ ls ∈ lss, Whole ls ∧ ls ≠ []) (rest : List Lexeme) :
    argumentsFrom 0 [] ([.comma].intercalate lss ++ .closing :: rest) = some (lss, rest) := by
  induction lss with
  | nil => exact absurd rfl hne
  | cons ls lss ih =>
    obtain ⟨⟨hls, hempty⟩, hlss⟩ := List.forall_mem_cons.mp h
    cases lss with
    | nil =>
      rw [List.intercalate_singleton, hls.passed, List.nil_append, argumentsFrom_end,
        if_neg hempty]
    | cons ms lss =>
      rw [List.intercalate_cons_cons, List.append_assoc, List.append_assoc, hls.passed,
        List.nil_append, List.singleton_append, argumentsFrom_comma, ih (List.cons_ne_nil _ _) hlss]
      rfl

/-- The arguments that are read from a call are those that it was written with. -/
theorem readCall_called {name : String} {lss : List (List Lexeme)} (hne : lss ≠ [])
    (h : ∀ ls ∈ lss, Whole ls ∧ ls ≠ []) (rest : List Lexeme) :
    readCall name (called name ([.comma].intercalate lss) ++ rest) = some (lss, rest) := by
  have hdrop : (called name ([.comma].intercalate lss) ++ rest).dropPrefix?
      (written name.toList ++ [.opening]) =
        some ([.comma].intercalate lss ++ .closing :: rest) := by
    refine List.dropPrefix?_eq_some_iff.mpr ⟨_, ?_, BEq.rfl⟩
    simp only [called, List.append_assoc, List.cons_append, List.nil_append]
  rw [readCall, hdrop]
  exact argumentsFrom_intercalate hne h rest

theorem readCall_whole {name : String} {lss : List (List Lexeme)} (hne : lss ≠ [])
    (h : ∀ ls ∈ lss, Whole ls ∧ ls ≠ []) :
    readCall name (called name ([.comma].intercalate lss)) = some (lss, []) := by
  have hread := @readCall_called name lss hne h []
  rwa [List.append_nil] at hread

theorem readCall_one {name : String} {ls : List Lexeme} (h : Whole ls) (hne : ls ≠ []) :
    readCall name (called name ls) = some ([ls], []) := by
  have hread := @readCall_whole name [ls] (List.cons_ne_nil _ _)
    (List.forall_mem_singleton.mpr ⟨h, hne⟩)
  rwa [List.intercalate_singleton] at hread

end Arguments

section Writing

theorem lexes_called {name : String} {cs : List Char} {ls : List Lexeme}
    (hname : ∀ c ∈ name.toList, IsSign c) (h : Lexes cs ls) :
    Lexes (name.toList ++ '(' :: (cs ++ [')'])) (called name ls) := by
  have hopen : Lexes ['('] [.opening] := lexes_char (by decide) (by decide)
  have hclose : Lexes [')'] [.closing] := lexes_char (by decide) (by decide)
  exact (lexes_signs hname).append (hopen.append (h.append hclose))

theorem lexes_intercalate {mark : List Char} (hmark : Lexes mark [.comma])
    {texts : List (List Char)} {lss : List (List Lexeme)} (h : List.Forall₂ Lexes texts lss) :
    Lexes (mark.intercalate texts) ([.comma].intercalate lss) := by
  induction h with
  | nil => exact lexes_nil
  | cons hls hrest ih =>
    cases hrest with
    | nil =>
      rwa [List.intercalate_singleton, List.intercalate_singleton]
    | cons hms hrest =>
      rw [List.intercalate_cons_cons, List.intercalate_cons_cons]
      exact (hls.append hmark).append ih

end Writing

end PatternLoom
