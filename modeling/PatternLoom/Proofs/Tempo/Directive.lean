import Mathlib
import PatternLoom.Tempo

/-! The grammar of tempo directives, and the search for them. A call is found exactly where
the text has one by the grammar; the leftmost is found first, and its statement ends as late
as it can. -/

namespace PatternLoom
namespace Tempo

/-- A text spells a word, in any case. -/
def Spells (word cs : List Char) : Prop := List.Forall₂ (fun letter c => sameLetter letter c) word cs

/-- Digits with a point before, between or without them, and the number they stand for. -/
inductive Numeral : List Char → Binary64 → Prop where
  | whole {ds : List Char} (nonempty : ds ≠ []) (digits : ∀ c ∈ ds, isAsciiDigit c = true) :
    Numeral ds (Decimal.pointed ds [])
  | pointed {ds es : List Char} (digits : ∀ c ∈ ds, isAsciiDigit c = true) (nonempty : es ≠ [])
    (places : ∀ c ∈ es, isAsciiDigit c = true) :
    Numeral (ds ++ '.' :: es) (Decimal.pointed ds es)

/-- A word, which ends in an opening bracket, with one number inside of the brackets. -/
inductive Call (word : List Char) : List Char → Binary64 → Prop where
  | intro {w left numeral right : List Char} {x : Binary64} (spells : Spells word w)
    (blank_left : ∀ c ∈ left, isBlank c = true) (number : Numeral numeral x)
    (blank_right : ∀ c ∈ right, isBlank c = true) :
    Call word (w ++ (left ++ (numeral ++ (right ++ [')'])))) x

/-- A call with the end of its statement on the same line. -/
inductive Directive (word : List Char) : List Char → Binary64 → Prop where
  | intro {call spaces stop : List Char} {x : Binary64} (is_call : Call word call x)
    (are_spaces : ∀ c ∈ spaces, c = ' ' ∨ c = '\t') (is_stop : stop = [] ∨ stop = [';']) :
    Directive word (call ++ (spaces ++ stop)) x

def Contains (word cs : List Char) : Prop :=
  ∃ before d after x, cs = before ++ (d ++ after) ∧ Directive word d x

/-- The directive that comes first in a text, with all of its statement. -/
structure Leftmost (word cs before d after : List Char) (x : Binary64) : Prop where
  parts : cs = before ++ (d ++ after)
  directive : Directive word d x
  first : ∀ before' d' after' y, cs = before' ++ (d' ++ after') → Directive word d' y →
    before.length ≤ before'.length
  longest : ∀ d' after' y, d ++ after = d' ++ after' → Directive word d' y → d'.length ≤ d.length

section Characters

theorem isBlank_eq_false_of_isAsciiDigit {c : Char} (h : isAsciiDigit c = true) :
    isBlank c = false := by
  have hrange : 48 ≤ c.toNat ∧ c.toNat ≤ 57 := by
    simpa [isAsciiDigit, Char.le_def, UInt32.le_iff_toNat_le] using h
  simp only [isBlank, Bool.or_eq_false_iff, Bool.and_eq_false_iff, decide_eq_false_iff_not,
    beq_eq_false_iff_ne]
  omega

theorem isAsciiDigit_eq_false_of_isBlank {c : Char} (h : isBlank c = true) :
    isAsciiDigit c = false := by
  by_contra hdigit
  rw [isBlank_eq_false_of_isAsciiDigit (by simpa using hdigit)] at h
  cases h

theorem takeWhile_dropWhile_append {p : Char → Bool} {ds rest : List Char}
    (hds : ∀ c ∈ ds, p c = true) (hrest : ∀ c ∈ rest.head?, p c = false) :
    (ds ++ rest).takeWhile p = ds ∧ (ds ++ rest).dropWhile p = rest := by
  rw [List.takeWhile_append_of_pos hds, List.dropWhile_append_of_pos hds]
  cases rest with
  | nil => simp
  | cons c rest => simp [hrest c rfl]

theorem trimLeft_append {left rest : List Char} (hleft : ∀ c ∈ left, isBlank c = true)
    (hrest : ∀ c ∈ rest.head?, isBlank c = false) : trimLeft (left ++ rest) = rest :=
  (takeWhile_dropWhile_append hleft hrest).2

theorem exists_trimLeft (cs : List Char) :
    ∃ left, cs = left ++ trimLeft cs ∧ ∀ c ∈ left, isBlank c = true :=
  ⟨cs.takeWhile isBlank, List.takeWhile_append_dropWhile.symm, fun _ h => List.mem_takeWhile_imp h⟩

end Characters

section Calls

theorem afterWord_eq_some_iff {word cs rest : List Char} :
    afterWord word cs = some rest ↔ ∃ w, cs = w ++ rest ∧ Spells word w := by
  induction word generalizing cs with
  | nil => simp [afterWord, Spells, List.forall₂_nil_left_iff]
  | cons letter word ih =>
    cases cs with
    | nil => simp [afterWord, Spells, List.forall₂_cons_left_iff]
    | cons c cs =>
      simp only [Spells, List.forall₂_cons_left_iff]
      by_cases hc : sameLetter letter c = true
      · rw [afterWord, if_pos hc, ih]
        constructor
        · rintro ⟨w, rfl, hw⟩
          exact ⟨c :: w, rfl, c, w, hc, hw, rfl⟩
        · rintro ⟨_, he, b, w, _, hw, rfl⟩
          obtain ⟨rfl, rfl⟩ := List.cons.inj he
          exact ⟨w, rfl, hw⟩
      · rw [afterWord, if_neg hc]
        constructor
        · intro h
          cases h
        · rintro ⟨_, he, b, w, hb, _, rfl⟩
          obtain ⟨rfl, rfl⟩ := List.cons.inj he
          exact absurd hb hc

theorem number?_eq_some {cs rest : List Char} {x : Binary64} (h : number? cs = some (x, rest)) :
    ∃ numeral, cs = numeral ++ rest ∧ Numeral numeral x := by
  have hwhole : ∀ c ∈ cs.takeWhile isAsciiDigit, isAsciiDigit c = true :=
    fun _ hc => List.mem_takeWhile_imp hc
  have hparts := List.takeWhile_append_dropWhile (p := isAsciiDigit) (l := cs)
  unfold number? at h
  dsimp only at h
  split at h
  · rename_i more hmore
    split at h
    · cases h
    · rename_i hplaces
      obtain ⟨rfl, rfl⟩ := Prod.mk.inj (Option.some.inj h)
      refine ⟨cs.takeWhile isAsciiDigit ++ '.' :: more.takeWhile isAsciiDigit, ?_,
        .pointed hwhole (by simpa using hplaces) fun _ hc => List.mem_takeWhile_imp hc⟩
      rw [hmore] at hparts
      rw [List.append_assoc, List.cons_append, List.takeWhile_append_dropWhile, hparts]
  · split at h
    · cases h
    · rename_i hdigits
      obtain ⟨rfl, rfl⟩ := Prod.mk.inj (Option.some.inj h)
      exact ⟨_, hparts.symm, .whole (by simpa using hdigits) hwhole⟩

/-- A numeral is read whole if neither a digit nor a point follows it. -/
theorem number?_append {numeral rest : List Char} {x : Binary64} (h : Numeral numeral x)
    (hrest : ∀ c ∈ rest.head?, isAsciiDigit c = false ∧ c ≠ '.') :
    number? (numeral ++ rest) = some (x, rest) := by
  have hstop : ∀ c ∈ rest.head?, isAsciiDigit c = false := fun c hc => (hrest c hc).1
  unfold number?
  dsimp only
  cases h with
  | whole hne hdigits =>
    obtain ⟨htake, hdrop⟩ := takeWhile_dropWhile_append hdigits hstop
    rw [htake, hdrop]
    split
    · exact absurd rfl (hrest '.' rfl).2
    · rw [if_neg (by simpa using hne)]
  | @pointed ds es hdigits hne hplaces =>
    obtain ⟨htake, hdrop⟩ := @takeWhile_dropWhile_append _ ds ('.' :: (es ++ rest)) hdigits
      (by rintro c ⟨⟩; decide)
    obtain ⟨htake', hdrop'⟩ := takeWhile_dropWhile_append hplaces hstop
    rw [List.append_assoc, List.cons_append, htake, hdrop]
    simp only [htake', hdrop', List.isEmpty_iff, hne, if_false]

theorem Numeral.head {numeral : List Char} {x : Binary64} (h : Numeral numeral x)
    (rest : List Char) : ∀ c ∈ (numeral ++ rest).head?, isBlank c = false := by
  have hdigits : ∀ ds : List Char, ds ≠ [] → (∀ c ∈ ds, isAsciiDigit c = true) →
      ∀ rest c, c ∈ (ds ++ rest).head? → isBlank c = false := by
    intro ds hne hds rest c hc
    obtain ⟨d, ds, rfl⟩ := List.exists_cons_of_ne_nil hne
    obtain rfl := Option.some.inj hc
    exact isBlank_eq_false_of_isAsciiDigit (hds d List.mem_cons_self)
  cases h with
  | whole hne hds => exact hdigits _ hne hds rest
  | @pointed ds es hds _ _ =>
    cases ds with
    | nil =>
      rintro c ⟨⟩
      decide
    | cons d ds =>
      rw [List.append_assoc]
      exact hdigits _ (List.cons_ne_nil d ds) hds _

/-- A text begins with a call exactly if one is read there. -/
theorem call?_eq_some_iff {word cs rest : List Char} {x : Binary64} :
    call? word cs = some (x, rest) ↔ ∃ call, cs = call ++ rest ∧ Call word call x := by
  constructor
  · intro h
    simp only [call?, Option.bind_eq_bind, Option.bind_eq_some_iff] at h
    obtain ⟨inside, hinside, ⟨y, afterNumber⟩, hnumber, hclose⟩ := h
    obtain ⟨w, rfl, hw⟩ := afterWord_eq_some_iff.mp hinside
    obtain ⟨left, hleft, hblank⟩ := exists_trimLeft inside
    obtain ⟨numeral, hnumeral, hnum⟩ := number?_eq_some hnumber
    obtain ⟨right, hright, hblank'⟩ := exists_trimLeft afterNumber
    split at hclose
    · rename_i tail htail
      obtain ⟨rfl, rfl⟩ := Prod.mk.inj (Option.some.inj hclose)
      refine ⟨_, ?_, .intro hw hblank hnum hblank'⟩
      rw [hleft, hnumeral, hright, htail]
      simp only [List.append_assoc, List.cons_append, List.nil_append]
    · cases hclose
  · rintro ⟨_, rfl, hw, hleft, hnum, hright⟩
    rename_i w left numeral right
    have hclose : trimLeft (right ++ ')' :: rest) = ')' :: rest :=
      trimLeft_append hright (by rintro c ⟨⟩; decide)
    have hnumber : number? (numeral ++ (right ++ ')' :: rest)) = some (x, right ++ ')' :: rest) := by
      refine number?_append hnum fun c hc => ?_
      cases right with
      | nil =>
        obtain rfl := Option.some.inj hc
        decide
      | cons d right =>
        obtain rfl := Option.some.inj hc
        have hblank := hright d List.mem_cons_self
        refine ⟨isAsciiDigit_eq_false_of_isBlank hblank, ?_⟩
        rintro rfl
        exact absurd hblank (by decide)
    have hinside : trimLeft (left ++ (numeral ++ (right ++ ')' :: rest))) =
        numeral ++ (right ++ ')' :: rest) := trimLeft_append hleft (hnum.head _)
    have hword : afterWord word (w ++ (left ++ (numeral ++ (right ++ ')' :: rest)))) =
        some (left ++ (numeral ++ (right ++ ')' :: rest))) :=
      afterWord_eq_some_iff.mpr ⟨w, rfl, hw⟩
    simp only [List.append_assoc, List.cons_append, List.nil_append, call?, hword, hinside,
      hnumber, hclose, Option.bind_eq_bind, Option.bind_some]

theorem Call.ne_nil {word call : List Char} {x : Binary64} (h : Call word call x) : call ≠ [] := by
  cases h
  simp

theorem call?_eq_none_iff {word cs : List Char} :
    call? word cs = none ↔ ∀ call rest x, cs = call ++ rest → ¬ Call word call x := by
  rw [Option.eq_none_iff_forall_not_mem]
  constructor
  · exact fun h call rest x hcs hcall => h (x, rest) (call?_eq_some_iff.mpr ⟨call, hcs, hcall⟩)
  · rintro h ⟨x, rest⟩ hmem
    obtain ⟨call, hcs, hcall⟩ := call?_eq_some_iff.mp hmem
    exact h call rest x hcs hcall

end Calls

section Searching

/-- No call begins in a text and ends before the text does. -/
def Callless (word cs : List Char) : Prop :=
  ∀ before call after x, cs = before ++ (call ++ after) → ¬ Call word call x

theorem findCall_eq_none_iff {word cs : List Char} :
    findCall word cs = none ↔ Callless word cs := by
  induction cs with
  | nil =>
    refine iff_of_true rfl fun before call after x h hcall => hcall.ne_nil ?_
    simp at h
    exact h.2.1
  | cons c cs ih =>
    rw [findCall]
    split
    · rename_i x rest hcall
      obtain ⟨call, hparts, hcall⟩ := call?_eq_some_iff.mp hcall
      exact iff_of_false nofun fun h => h [] call rest x hparts hcall
    · rename_i hnone
      rw [Option.map_eq_none_iff, ih]
      constructor
      · intro h before call after x hparts
        cases before with
        | nil => exact call?_eq_none_iff.mp hnone call after x hparts
        | cons b before => exact h before call after x (List.cons.inj hparts).2
      · intro h before call after x hparts
        exact h (c :: before) call after x (by rw [hparts, List.cons_append])

/-- The search stops at the first call. -/
theorem findCall_eq_some {word cs before rest : List Char} {x : Binary64}
    (h : findCall word cs = some (before, x, rest)) :
    ∃ call, cs = before ++ (call ++ rest) ∧ Call word call x ∧
      ∀ before' call' rest' y, cs = before' ++ (call' ++ rest') → Call word call' y →
        before.length ≤ before'.length := by
  induction cs generalizing before with
  | nil => cases h
  | cons c cs ih =>
    rw [findCall] at h
    split at h
    · rename_i y rest' hcall
      obtain ⟨rfl, rfl, rfl⟩ := by simpa using h
      obtain ⟨call, hparts, hcall⟩ := call?_eq_some_iff.mp hcall
      exact ⟨call, hparts, hcall, fun _ _ _ _ _ _ => Nat.zero_le _⟩
    · rename_i hnone
      obtain ⟨⟨before', y, rest'⟩, hfind, he⟩ := Option.map_eq_some_iff.mp h
      obtain ⟨rfl, rfl, rfl⟩ := by simpa using he
      obtain ⟨call, hparts, hcall, hfirst⟩ := ih hfind
      refine ⟨call, by rw [hparts, List.cons_append], hcall, ?_⟩
      intro before'' call' rest'' z hparts' hcall'
      cases before'' with
      | nil => exact absurd hcall' (call?_eq_none_iff.mp hnone call' rest'' z hparts')
      | cons b before'' =>
        exact Nat.succ_le_succ (hfirst before'' call' rest'' z (List.cons.inj hparts').2 hcall')

theorem findCall_append {word before call rest : List Char} {x : Binary64} (hcall : Call word call x)
    (hfirst : ∀ before' call' rest' y, before ++ (call ++ rest) = before' ++ (call' ++ rest') →
      Call word call' y → before.length ≤ before'.length) :
    findCall word (before ++ (call ++ rest)) = some (before, x, rest) := by
  induction before with
  | nil =>
    obtain ⟨c, cs, hcs⟩ := List.exists_cons_of_ne_nil
      (List.append_ne_nil_of_left_ne_nil hcall.ne_nil rest)
    have hread : call? word (c :: cs) = some (x, rest) :=
      call?_eq_some_iff.mpr ⟨call, hcs.symm, hcall⟩
    rw [List.nil_append, hcs, findCall, hread]
  | cons c before ih =>
    have hnone : call? word (c :: (before ++ (call ++ rest))) = none := by
      refine call?_eq_none_iff.mpr fun call' rest' y hparts hcall' => ?_
      exact Nat.not_succ_le_zero _ (hfirst [] call' rest' y hparts hcall')
    have hrest := ih fun before' call' rest' y hparts hcall' =>
      Nat.le_of_succ_le_succ (hfirst (c :: before') call' rest' y
        (by rw [List.cons_append, hparts, List.cons_append]) hcall')
    rw [List.cons_append, findCall, hnone, hrest]
    rfl

theorem Callless.of_append {word before after : List Char} (h : Callless word (before ++ after)) :
    Callless word before := by
  rintro before' call rest x rfl
  exact h before' call (rest ++ after) x (by simp only [List.append_assoc])

/-- There is no call in the text before the first one. -/
theorem Callless.of_findCall {word cs before rest : List Char} {x : Binary64}
    (h : findCall word cs = some (before, x, rest)) : Callless word before := by
  obtain ⟨call, rfl, hcall, hfirst⟩ := findCall_eq_some h
  rintro before' call' rest' y rfl hcall'
  have hle := hfirst before' call' (rest' ++ (call ++ rest)) y
    (by simp only [List.append_assoc]) hcall'
  have hpos := List.length_pos_iff.mpr hcall'.ne_nil
  simp only [List.length_append] at hle
  omega

end Searching

section Statements

theorem exists_dropEnd (cs : List Char) : ∃ spaces stop, cs = spaces ++ (stop ++ dropEnd cs) ∧
    (∀ c ∈ spaces, c = ' ' ∨ c = '\t') ∧ (stop = [] ∨ stop = [';']) := by
  refine ⟨cs.takeWhile fun c => c = ' ' || c = '\t', ?_⟩
  have hparts := List.takeWhile_append_dropWhile (p := fun c : Char => c = ' ' || c = '\t') (l := cs)
  have hspaces : ∀ c ∈ cs.takeWhile (fun c => c = ' ' || c = '\t'), c = ' ' ∨ c = '\t' := by
    intro c hc
    simpa using List.mem_takeWhile_imp hc
  unfold dropEnd dropSemicolon
  split
  · rename_i rest hrest
    exact ⟨[';'], by rw [List.singleton_append, ← hrest, hparts], hspaces, .inr rfl⟩
  · exact ⟨[], by rw [List.nil_append, hparts], hspaces, .inl rfl⟩

theorem length_dropEnd_le {spaces stop rest : List Char}
    (hspaces : ∀ c ∈ spaces, c = ' ' ∨ c = '\t') (hstop : stop = [] ∨ stop = [';']) :
    (dropEnd (spaces ++ (stop ++ rest))).length ≤ rest.length := by
  have hpos : ∀ c ∈ spaces, (c = ' ' || c = '\t') = true := by simpa using hspaces
  have hdrop := length_dropWhile_le (fun c : Char => c = ' ' || c = '\t') rest
  have hsemicolon : ∀ cs : List Char, (dropSemicolon cs).length ≤ cs.length := by
    intro cs
    unfold dropSemicolon
    split
    · exact Nat.le_succ _
    · exact le_rfl
  rw [dropEnd, List.dropWhile_append_of_pos hpos]
  rcases hstop with rfl | rfl
  · exact (hsemicolon _).trans hdrop
  · exact le_rfl

theorem Directive.exists_call {word d : List Char} {x : Binary64} (h : Directive word d x) :
    ∃ call tail, d = call ++ tail ∧ Call word call x ∧
      ∀ rest, (dropEnd (tail ++ rest)).length ≤ rest.length := by
  obtain ⟨hcall, hspaces, hstop⟩ := h
  refine ⟨_, _, rfl, hcall, fun rest => ?_⟩
  rw [List.append_assoc]
  exact length_dropEnd_le hspaces hstop

/-- What is found and replaced is the leftmost directive with all of its statement. -/
theorem leftmost_of_findCall {word cs before rest : List Char} {x : Binary64}
    (h : findCall word cs = some (before, x, rest)) :
    ∃ d, Leftmost word cs before d (dropEnd rest) x := by
  obtain ⟨call, hparts, hcall, hfirst⟩ := findCall_eq_some h
  obtain ⟨spaces, stop, hrest, hspaces, hstop⟩ := exists_dropEnd rest
  have hwhole : call ++ (spaces ++ stop) ++ dropEnd rest = call ++ rest := by
    rw [List.append_assoc, List.append_assoc, ← hrest]
  refine ⟨call ++ (spaces ++ stop), by rw [hwhole, hparts], .intro hcall hspaces hstop, ?_, ?_⟩
  · intro before' d' after' y hparts' hd'
    obtain ⟨call', tail, rfl, hcall', _⟩ := hd'.exists_call
    rw [List.append_assoc] at hparts'
    exact hfirst before' call' (tail ++ after') y hparts' hcall'
  · intro d' after' y he hd'
    obtain ⟨call', tail, rfl, hcall', htail⟩ := hd'.exists_call
    rw [hwhole, List.append_assoc] at he
    have hread : call? word (call ++ rest) = some (x, rest) :=
      call?_eq_some_iff.mpr ⟨call, rfl, hcall⟩
    rw [he, call?_eq_some_iff.mpr ⟨call', rfl, hcall'⟩] at hread
    obtain ⟨_, rfl⟩ := Prod.mk.inj (Option.some.inj hread)
    have hle := htail after'
    have hlength := congrArg List.length hwhole
    rw [he] at hlength
    simp only [List.length_append] at hlength hle ⊢
    omega

theorem contains_iff {word cs : List Char} : Contains word cs ↔ ¬ Callless word cs := by
  constructor
  · rintro ⟨before, d, after, x, rfl, hd⟩ hnone
    obtain ⟨call, tail, rfl, hcall, _⟩ := hd.exists_call
    exact hnone before call (tail ++ after) x (by rw [List.append_assoc]) hcall
  · intro h
    simp only [Callless, not_forall, not_not] at h
    obtain ⟨before, call, after, x, rfl, hcall⟩ := h
    refine ⟨before, call, after, x, rfl, ?_⟩
    have hd := @Directive.intro word call [] [] x hcall (by simp) (.inl rfl)
    rwa [List.append_nil, List.append_nil] at hd

theorem exists_findCall {word cs : List Char} (h : Contains word cs) :
    ∃ before x rest, findCall word cs = some (before, x, rest) := by
  cases hfind : findCall word cs with
  | none => exact absurd (findCall_eq_none_iff.mp hfind) (contains_iff.mp h)
  | some found => exact ⟨_, _, _, rfl⟩

end Statements

end Tempo
end PatternLoom
