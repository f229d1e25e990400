import Mathlib
import PatternLoom.Command.Report
import PatternLoom.Proofs.Decimal.Printed
import PatternLoom.Proofs.Result
import PatternLoom.Proofs.Text.Lines

/-! What is reported of a failure, and which results have a failure that is not. A message keeps to
its line unless it has a text in it that was given and does not. -/

namespace PatternLoom

section Numbers

theorem oneLine_ofDigits {cs : List Char} (h : ∀ c ∈ cs, isAsciiDigit c = true) :
    OneLine (String.ofList cs) := by
  intro c hc
  rw [String.toList_ofList] at hc
  exact isLineBreak_eq_false_of_isAsciiDigit (h c hc)

variable {ds : List Char}

theorem oneLine_take (hds : ∀ c ∈ ds, isAsciiDigit c = true) (n : Nat) :
    OneLine (String.ofList (ds.take n)) :=
  oneLine_ofDigits fun c hc => hds c (List.mem_of_mem_take hc)

theorem oneLine_drop (hds : ∀ c ∈ ds, isAsciiDigit c = true) (n : Nat) :
    OneLine (String.ofList (ds.drop n)) :=
  oneLine_ofDigits fun c hc => hds c (List.mem_of_mem_drop hc)

theorem oneLine_positional (hds : ∀ c ∈ ds, isAsciiDigit c = true) (leading : Int) :
    OneLine (Decimal.positional ds leading) := by
  have hzeros : ∀ n, ∀ c ∈ List.replicate n '0', isAsciiDigit c = true := by
    intro n c hc
    rw [List.eq_of_mem_replicate hc]
    decide
  have hstart : OneLine "0." := oneLine_ofList rfl
  have hpoint : OneLine "." := oneLine_ofList rfl
  have hend : OneLine ".0" := oneLine_ofList rfl
  unfold Decimal.positional
  dsimp only
  split_ifs
  · exact hstart.append (oneLine_ofDigits (List.forall_mem_append.mpr ⟨hzeros _, hds⟩))
  · exact (oneLine_ofDigits (List.forall_mem_append.mpr ⟨hds, hzeros _⟩)).append hend
  · exact ((oneLine_take hds _).append hpoint).append (oneLine_drop hds _)

theorem oneLine_withExponent (hds : ∀ c ∈ ds, isAsciiDigit c = true) (layout : Decimal.Layout)
    (leading : Int) : OneLine (Decimal.withExponent layout ds leading) := by
  have hpoint : OneLine "." := oneLine_ofList rfl
  have hmore : OneLine (if ds.length ≤ 1 then "" else "." ++ String.ofList (ds.drop 1)) := by
    split_ifs
    · decide
    · exact hpoint.append (oneLine_drop hds 1)
  have hsign : OneLine (if leading < 0 then "e-" else "e+") := by
    split_ifs <;> decide
  exact (((oneLine_take hds 1).append hmore).append hsign).append
    (oneLine_ofDigits fun _ => Decimal.isAsciiDigit_of_mem_paddedDigits)

theorem oneLine_shortestText (x : Binary64) : OneLine (Decimal.shortestText x) := by
  have hsign : ∀ negative, OneLine (Decimal.signText negative) := by decide
  have htext : ∀ d : Decimal.Scientific, OneLine (d.text Decimal.standardLayout) := by
    intro d
    have hds : ∀ c ∈ ((Decimal.digits d.significand).reverse.dropWhile (· = '0')).reverse,
        isAsciiDigit c = true := by
      intro c hc
      have hmem := (List.dropWhile_sublist _).mem (List.mem_reverse.mp hc)
      exact Decimal.isAsciiDigit_of_mem_digits (List.mem_reverse.mp hmem)
    unfold Decimal.Scientific.text
    dsimp only
    split_ifs
    · exact oneLine_positional hds _
    · exact oneLine_withExponent hds _ _
  cases x with
  | nan => decide
  | infinity negative =>
    have hinf : OneLine "inf" := oneLine_ofList rfl
    exact (hsign negative).append hinf
  | finite negative u hu =>
    refine (hsign negative).append ?_
    split_ifs
    · decide
    · exact htext _

end Numbers

namespace Failure

/-- The texts that a message has in it as they were given. -/
def quoted : Failure → List String
  | unknownKind kind layer => [kind, layer]
  | unknownParamType type key => [type, key]
  | duplicateLayer text | phaseWithoutRange text | maxBelowMin text | stepNotPositive text
  | unknownStyle text | unknownLength text | unknownTemplate text | malformedOverride text => [text]
  | unknownOptions names => names
  | refusedImport (.tooManyNotes _ limit) => [limit]
  | _ => []

theorem oneLine_spanText (minutes : Int) : OneLine (spanText minutes) := by
  have hparts : ∀ {absent : Prop} [Decidable absent] {name : String} (n : Int), OneLine name →
      ∀ part ∈ (if absent then [] else [name ++ toString n] : List String), OneLine part := by
    intro absent _ name n hname part hpart
    split at hpart
    · cases hpart
    · rw [List.mem_singleton.mp hpart]
      exact hname.append (oneLine_toString n)
  have hopen : OneLine "datetime.timedelta(" := oneLine_ofList rfl
  have hclose : OneLine ")" := oneLine_ofList rfl
  refine (hopen.append (oneLine_intercalate (oneLine_ofList rfl) ?_)).append hclose
  exact List.forall_mem_append.mpr ⟨hparts _ (oneLine_ofList rfl), hparts _ (oneLine_ofList rfl)⟩

theorem oneLine_momentFaultText (fault : MomentFault) : OneLine (momentFaultText fault) := by
  cases fault with
  | zone minutes =>
    have hbefore : OneLine "offset must be a timedelta strictly between -timedelta(hours=24) and " :=
      oneLine_ofList rfl
    have hbetween : OneLine "timedelta(hours=24), not " := oneLine_ofList rfl
    have hafter : OneLine "." := oneLine_ofList rfl
    exact ((hbefore.append hbetween).append (oneLine_spanText minutes)).append hafter
  | _ => exact oneLine_ofList rfl

section Quoting

variable {before between after given first second listing : String}

theorem oneLine_unquoted {s : String} (h : OneLine s) :
    OneLine s ↔ ∀ other ∈ ([] : List String), OneLine other :=
  iff_of_true h (List.forall_mem_nil _)

theorem oneLine_quoting (hbefore : OneLine before) (hafter : OneLine after) :
    OneLine (before ++ given ++ after) ↔ ∀ other ∈ [given], OneLine other := by
  rw [oneLine_append, oneLine_append, and_iff_left hafter, and_iff_right hbefore,
    List.forall_mem_singleton]

theorem oneLine_quotingTwo (hbefore : OneLine before) (hbetween : OneLine between)
    (hafter : OneLine after) :
    OneLine (before ++ first ++ between ++ second ++ after) ↔
      ∀ other ∈ [first, second], OneLine other := by
  rw [oneLine_append, oneLine_append, oneLine_append, oneLine_append, and_iff_left hafter,
    and_iff_left hbetween, and_iff_right hbefore, List.forall_mem_cons, List.forall_mem_singleton]

theorem oneLine_quotingListed (hbefore : OneLine before) (hafter : OneLine after)
    (hlisting : OneLine listing) :
    OneLine (before ++ given ++ after ++ listing) ↔ ∀ other ∈ [given], OneLine other := by
  rw [oneLine_append, and_iff_left hlisting]
  exact oneLine_quoting hbefore hafter

end Quoting

/-- A message keeps to the line if and only if every text does that is quoted in it. -/
theorem oneLine_reportText {failure : Failure} {text : String}
    (h : failure.reportText = some text) :
    OneLine text ↔ ∀ given ∈ failure.quoted, OneLine given := by
  cases failure with
  | notANumber | noSections | noTemplateGiven | noSuchCharacter =>
    obtain rfl := Option.some.inj h
    exact oneLine_unquoted (oneLine_ofList rfl)
  | duplicateLayer given | phaseWithoutRange given | maxBelowMin given | stepNotPositive given
  | malformedOverride given =>
    obtain rfl := Option.some.inj h
    exact oneLine_quoting (oneLine_ofList rfl) (oneLine_ofList rfl)
  | unknownKind first second | unknownParamType first second =>
    obtain rfl := Option.some.inj h
    exact oneLine_quotingTwo (oneLine_ofList rfl) (oneLine_ofList rfl) (oneLine_ofList rfl)
  | unknownStyle given | unknownLength given | unknownTemplate given =>
    obtain rfl := Option.some.inj h
    exact oneLine_quotingListed (oneLine_ofList rfl) (oneLine_ofList rfl) (by decide +kernel)
  | unknownOptions names =>
    obtain rfl := Option.some.inj h
    have hbefore : OneLine "Unknown MIDI import options: " := oneLine_ofList rfl
    rw [oneLine_append, and_iff_right hbefore]
    exact oneLine_intercalate_iff (oneLine_ofList rfl)
  | negativeWeight pattern =>
    obtain rfl := Option.some.inj h
    exact oneLine_unquoted (OneLine.append (oneLine_ofList rfl) (oneLine_shown pattern))
  | tempoNotPositive bpm =>
    obtain rfl := Option.some.inj h
    exact oneLine_unquoted (OneLine.append (oneLine_ofList rfl) (oneLine_shortestText bpm))
  | cannotOpen problem path =>
    obtain rfl := Option.some.inj h
    have hproblem : OneLine (accessText problem) := by
      cases problem <;> exact oneLine_ofList rfl
    exact oneLine_unquoted (hproblem.append (oneLine_shown path))
  | noSuchMoment fault =>
    obtain rfl := Option.some.inj h
    exact oneLine_unquoted (oneLine_momentFaultText fault)
  | refusedImport reason =>
    obtain rfl := Option.some.inj h
    cases reason with
    | tooManyNotes notes limit =>
      have hbefore : OneLine ("MIDI note limit exceeded (" ++ toString notes ++ " > ") := by
        simp only [oneLine_append, oneLine_natToString, and_true]
        exact ⟨oneLine_ofList rfl, oneLine_ofList rfl⟩
      exact oneLine_quoting hbefore (oneLine_ofList rfl)
    | _ => exact oneLine_unquoted (oneLine_ofList rfl)
  | malformedNumeral base text =>
    cases base with
    | none =>
      obtain rfl := Option.some.inj h
      exact oneLine_unquoted (OneLine.append (oneLine_ofList rfl) (oneLine_shown text))
    | some base =>
      obtain rfl := Option.some.inj h
      refine oneLine_unquoted (OneLine.append ?_ (oneLine_shown text))
      simp only [oneLine_append, oneLine_natToString, and_true]
      exact ⟨oneLine_ofList rfl, oneLine_ofList rfl⟩
  | tooFewBars bars sections minimum =>
    obtain rfl := Option.some.inj h
    refine oneLine_unquoted ?_
    simp only [oneLine_append, oneLine_toString, oneLine_natToString, true_and, and_true]
    exact ⟨⟨oneLine_ofList rfl, oneLine_ofList rfl⟩, oneLine_ofList rfl⟩
  | tooManyDigits digits =>
    obtain rfl := Option.some.inj h
    refine oneLine_unquoted ?_
    simp only [oneLine_append, oneLine_natToString, and_true]
    exact ⟨⟨oneLine_ofList rfl, oneLine_ofList rfl⟩, oneLine_ofList rfl⟩
  | tooLongToWrite =>
    obtain rfl := Option.some.inj h
    refine oneLine_unquoted ?_
    simp only [oneLine_append, oneLine_natToString, and_true]
    exact ⟨oneLine_ofList rfl, oneLine_ofList rfl⟩
  | _ => cases h

theorem report_eq_some {failure : Failure} {line : String} : failure.report = some line ↔
    ∃ text, failure.reportText = some text ∧
      line = "error: " ++ failure.reportKind ++ ": " ++ text := by
  rw [report, Option.map_eq_some_iff]
  simp only [@eq_comm _ _ line]

end Failure

/-- A result with a failure that is not reported. -/
def Unreported {α : Type} (x : Result α) : Prop := ∃ e, x = .error e ∧ e.report = none

section Unreported

variable {α β : Type} {x : Result α} {f : α → Result β}

theorem not_unreported_ok (a : α) : ¬ Unreported (.ok a : Result α) := by
  rintro ⟨e, he, -⟩
  cases he

theorem unreported_error {e : Failure} : Unreported (.error e : Result α) ↔ e.report = none := by
  constructor
  · rintro ⟨e', he, hnone⟩
    rwa [Except.error.inj he]
  · exact fun h => ⟨e, rfl, h⟩

theorem not_unreported_error {e : Failure} {line : String} (h : e.report = some line) :
    ¬ Unreported (.error e : Result α) := by
  rw [unreported_error, h]
  exact Option.some_ne_none line

theorem unreported_bind :
    Unreported (x >>= f) ↔ Unreported x ∨ ∃ a, x = .ok a ∧ Unreported (f a) := by
  simp only [Unreported, bind_eq_error]
  constructor
  · rintro ⟨e, hx | ⟨a, ha, hfa⟩, hnone⟩
    · exact .inl ⟨e, hx, hnone⟩
    · exact .inr ⟨a, ha, e, hfa, hnone⟩
  · rintro (⟨e, hx, hnone⟩ | ⟨a, ha, e, hfa, hnone⟩)
    · exact ⟨e, .inl hx, hnone⟩
    · exact ⟨e, .inr ⟨a, ha, hfa⟩, hnone⟩

theorem unreported_bind_ok {a : α} (h : x = .ok a) : Unreported (x >>= f) ↔ Unreported (f a) := by
  rw [h]
  rfl

theorem not_unreported_bind (hx : ¬ Unreported x) (hf : ∀ a, x = .ok a → ¬ Unreported (f a)) :
    ¬ Unreported (x >>= f) := by
  rw [unreported_bind]
  rintro (h | ⟨a, ha, h⟩)
  · exact hx h
  · exact hf a ha h

/-- What follows has no failure of its own that is not reported. -/
theorem unreported_followed (hf : ∀ a, x = .ok a → ¬ Unreported (f a)) :
    Unreported (x >>= f) ↔ Unreported x := by
  rw [unreported_bind]
  exact or_iff_left fun ⟨a, ha, h⟩ => hf a ha h

end Unreported

end PatternLoom
