import Mathlib
import PatternLoom.Midi.Sound
import PatternLoom.Proofs.Midi.PatternReading

/-! Reading the names of notes. After the letter a `b` is always a flat, since an octave
begins with a digit or a sign; so every pitch has a name that reads as it, with sharps and
with flats. -/

namespace PatternLoom
namespace Midi

/-- The semitones of a letter above C. -/
def letterSemitones : Char → Option Int
  | 'c' => some 0
  | 'd' => some 2
  | 'e' => some 4
  | 'f' => some 5
  | 'g' => some 7
  | 'a' => some 9
  | 'b' => some 11
  | _ => none

/-- The shift of an accidental, none without one, and what comes after it. -/
def readAccidental : List Char → Int × List Char
  | '#' :: cs => (1, cs)
  | 'b' :: cs => (-1, cs)
  | cs => (0, cs)

def readDigits (cs : List Char) : Option Int :=
  if cs ≠ [] ∧ cs.all isAsciiDigit then some (Decimal.digitsValue cs) else none

def readOctave : List Char → Option Int
  | '-' :: cs => (readDigits cs).map (-·)
  | cs => readDigits cs

def readPitch : List Char → Option Int
  | [] => none
  | letter :: cs => do
    let (shift, octave) := readAccidental cs
    return 12 * ((← readOctave octave) + 1) + (← letterSemitones letter) + shift

theorem readDigits_digits (n : Nat) : readDigits (Decimal.digits n) = some (n : Int) := by
  have hall : (Decimal.digits n).all isAsciiDigit :=
    List.all_eq_true.mpr fun _ => Decimal.isAsciiDigit_of_mem_digits
  rw [readDigits, if_pos ⟨Decimal.digits_ne_nil n, hall⟩, Decimal.digitsValue_digits]

/-- An integer is written as digits, after a sign if it is negative. -/
theorem readOctave_digits (n : Nat) : readOctave (Decimal.digits n) = some (n : Int) := by
  unfold readOctave
  split
  · rename_i cs he
    have hsign := Decimal.isAsciiDigit_of_mem_digits (n := n) (c := '-') (by rw [he]; simp)
    cases hsign
  · exact readDigits_digits n

theorem readOctave_toString (n : Int) : readOctave (toString n).toList = some n := by
  rcases toList_toString_int n with ⟨hn, htext⟩ | ⟨hn, htext⟩
  · rw [htext, readOctave_digits, Int.toNat_of_nonneg hn]
  · rw [htext, readOctave, readDigits_digits, Option.map_some]
    congr 1
    omega

theorem readAccidental_toString (n : Int) :
    readAccidental (toString n).toList = (0, (toString n).toList) := by
  unfold readAccidental
  split
  · rename_i cs he
    rcases @mem_toString_int n '#' (by rw [he]; simp) with h | h
    · cases h
    · cases h
  · rename_i cs he
    rcases @mem_toString_int n 'b' (by rw [he]; simp) with h | h
    · cases h
    · cases h
  · rfl

/-- Letter and accidental of a pitch class make up for the class. -/
theorem readPitch_class {r : Nat} (hr : r < 12) (sharps : Bool) {octave : List Char}
    (h : readAccidental octave = (0, octave)) :
    readPitch (((if sharps then sharpNames else flatNames).getD r "").toList ++ octave) =
      (readOctave octave).map fun n : Int => 12 * (n + 1) + (r : Int) := by
  have hsharp : readAccidental ('#' :: octave) = (1, octave) := rfl
  have hflat : readAccidental ('b' :: octave) = (-1, octave) := rfl
  cases hoctave : readOctave octave with
  | none =>
    cases sharps <;> interval_cases r <;>
      simp [readPitch, sharpNames, flatNames, h, hsharp, hflat, hoctave]
  | some n =>
    cases sharps <;> interval_cases r <;>
      simp [readPitch, letterSemitones, sharpNames, flatNames, h, hsharp, hflat, hoctave] <;>
      omega

/-- Every pitch is read from its name. -/
theorem readPitch_noteName (pitch : Int) (sharps : Bool) :
    readPitch (noteName pitch sharps).toList = some pitch := by
  have hclass : (pitch % 12).toNat < 12 := by omega
  rw [noteName, String.toList_append, readPitch_class hclass sharps (readAccidental_toString _),
    readOctave_toString, Option.map_some]
  congr 1
  omega

theorem isPlain_of_mem_class {r : Nat} (hr : r < 12) (sharps : Bool) {c : Char}
    (hc : c ∈ ((if sharps then sharpNames else flatNames).getD r "").toList) : IsPlain c := by
  cases sharps <;> interval_cases r <;> simp [sharpNames, flatNames] at hc <;>
    rcases hc with rfl | rfl <;> decide

theorem isPlain_of_mem_toString {n : Int} {c : Char} (hc : c ∈ (toString n).toList) :
    IsPlain c := by
  rcases mem_toString_int hc with rfl | hc
  · decide
  · exact isPlain_of_isAsciiDigit hc

theorem isName_noteName (pitch : Int) (sharps : Bool) : IsName (noteName pitch sharps) := by
  constructor
  · intro c hc
    rw [noteName, String.toList_append] at hc
    rcases List.mem_append.mp hc with hc | hc
    · exact isPlain_of_mem_class (by omega) sharps hc
    · exact isPlain_of_mem_toString hc
  · intro he
    have hread := readPitch_noteName pitch sharps
    rw [he] at hread
    cases hread

theorem nearestEntry_mem (note : Int) (best : Int × String) (entries : List (Int × String)) :
    nearestEntry note best entries ∈ best :: entries := by
  induction entries generalizing best with
  | nil => exact List.mem_singleton_self best
  | cons entry entries ih =>
    rw [nearestEntry]
    split
    · exact List.mem_cons_of_mem _ (ih entry)
    · rcases List.mem_cons.mp (ih best) with h | h
      · rw [h]
        exact List.mem_cons_self
      · exact List.mem_cons_of_mem _ (List.mem_cons_of_mem _ h)

theorem mem_of_lookup {β : Type} {key : Int} {value : β} {entries : List (Int × β)}
    (h : entries.lookup key = some value) : value ∈ entries.map Prod.snd := by
  obtain ⟨before, after, rfl, _⟩ := List.lookup_eq_some_iff.mp h
  simp

/-- The sample of every drum note is one of the table. -/
theorem drumSample_mem (note : Int) : (drumSample note).1 ∈ drumTable.map Prod.snd := by
  unfold drumSample
  split
  · rename_i sample h
    exact mem_of_lookup h
  · have hmem := nearestEntry_mem note (35, "bd") drumTable
    rcases List.mem_cons.mp hmem with h | h
    · rw [h]
      decide
    · exact List.mem_map_of_mem h

theorem isName_drumSample (note : Int) : IsName (drumSample note).1 := by
  have hsamples : (drumSample note).1 ∈ ["bd", "sd", "hh", "cr"] := by
    have hmem := drumSample_mem note
    simp only [drumTable, List.map_cons, List.map_nil, List.mem_cons] at hmem ⊢
    tauto
  simp only [List.mem_cons, List.not_mem_nil, or_false] at hsamples
  constructor
  · intro c hc
    rcases hsamples with h | h | h | h <;> simp [h] at hc <;> rcases hc with rfl | rfl <;> decide
  · rcases hsamples with h | h | h | h <;> simp [h, rest]

end Midi
end PatternLoom
