import Mathlib
import PatternLoom.Proofs.Result
import PatternLoom.Proofs.Tempo.Directive
import PatternLoom.Text.Literal

/-! Texts without tempo words. Such texts may be put side by side where a character that is in
no word parts them, and nothing is found in them or taken away. -/

namespace PatternLoom
namespace Tempo

/-- No tempo word begins in the text. -/
def Untimed (cs : List Char) : Prop :=
  ∀ tail ∈ cs.tails, ∀ word ∈ [cpsWord, bpmWord], afterWord word tail = none

instance (cs : List Char) : Decidable (Untimed cs) :=
  @List.decidableBAll _ _ (fun _ => List.decidableBAll _ _) _

/-- A character that stands in no tempo word. -/
def Foreign (c : Char) : Prop := ∀ letter ∈ cpsWord ++ bpmWord, sameLetter letter c = false

instance (c : Char) : Decidable (Foreign c) := List.decidableBAll _ _

/-- A text without tempo words that may follow any other. -/
structure Sealed (cs : List Char) : Prop where
  untimed : Untimed cs
  head : ∀ c ∈ cs.head?, Foreign c

theorem sealed_iff {cs : List Char} :
    Untimed cs ∧ cs.head?.all (fun c => decide (Foreign c)) = true ↔ Sealed cs := by
  constructor
  · rintro ⟨huntimed, hhead⟩
    refine ⟨huntimed, fun c hc => ?_⟩
    rw [hc] at hhead
    exact of_decide_eq_true hhead
  · rintro ⟨huntimed, hhead⟩
    cases cs with
    | nil => exact ⟨huntimed, rfl⟩
    | cons c cs => exact ⟨huntimed, decide_eq_true (hhead c rfl)⟩

instance (cs : List Char) : Decidable (Sealed cs) := decidable_of_iff _ sealed_iff

section Joining

variable {cs ds : List Char} {c : Char}

theorem untimed_nil : Untimed [] := by decide

theorem untimed_cons_iff : Untimed (c :: cs) ↔
    (∀ word ∈ [cpsWord, bpmWord], afterWord word (c :: cs) = none) ∧ Untimed cs := by
  simp only [Untimed, List.tails_cons, List.forall_mem_cons]

theorem Foreign.sameLetter_eq {word : List Char} (h : Foreign c)
    (hword : word ∈ [cpsWord, bpmWord]) : ∀ letter ∈ word, sameLetter letter c = false := by
  intro letter hletter
  simp only [List.mem_cons, List.not_mem_nil, or_false] at hword
  rcases hword with rfl | rfl
  · exact h letter (List.mem_append_left _ hletter)
  · exact h letter (List.mem_append_right _ hletter)

theorem Foreign.not_mem {word w : List Char} (h : Foreign c) (hword : word ∈ [cpsWord, bpmWord])
    (hw : Spells word w) : c ∉ w := by
  intro hc
  obtain ⟨letter, hletter, hsame⟩ := exists_of_forall₂_right hw hc
  rw [h.sameLetter_eq hword letter hletter] at hsame
  cases hsame

theorem Untimed.cons (h : Untimed cs) (hc : sameLetter 's' c = false) : Untimed (c :: cs) := by
  refine untimed_cons_iff.mpr ⟨fun word hword => ?_, h⟩
  simp only [List.mem_cons, List.not_mem_nil, or_false] at hword
  rcases hword with rfl | rfl
  · change (if sameLetter 's' c then _ else none) = none
    rw [hc]
    rfl
  · change (if sameLetter 's' c then _ else none) = none
    rw [hc]
    rfl

/-- A word that begins before a foreign character ends before it. -/
theorem Untimed.append_cons (h : Untimed cs) (hc : Foreign c) (hd : Untimed ds) :
    Untimed (cs ++ c :: ds) := by
  induction cs with
  | nil => exact hd.cons (hc 's' (by decide))
  | cons b cs ih =>
    obtain ⟨hb, hcs⟩ := untimed_cons_iff.mp h
    refine untimed_cons_iff.mpr ⟨fun word hword => ?_, ih hcs⟩
    rw [Option.eq_none_iff_forall_ne_some]
    intro rest hrest
    obtain ⟨w, hparts, hw⟩ := afterWord_eq_some_iff.mp hrest
    -- The word would reach the foreign character, or stand in the first text.
    rcases List.append_eq_append_iff.mp (show (b :: cs) ++ c :: ds = w ++ rest from hparts) with
      ⟨more, hmore, hds⟩ | ⟨more, hmore, _⟩
    · cases more with
      | nil =>
        have hfound := afterWord_eq_some_iff.mpr ⟨w, (List.append_nil w).symm, hw⟩
        rw [List.append_nil] at hmore
        rw [hmore, hb word hword] at hfound
        cases hfound
      | cons e more =>
        obtain ⟨rfl, _⟩ := List.cons.inj hds
        exact hc.not_mem hword hw (by simp [hmore])
    · have hfound := afterWord_eq_some_iff.mpr ⟨w, hmore, hw⟩
      rw [hb word hword] at hfound
      cases hfound

theorem Sealed.cons (h : Untimed cs) (hc : Foreign c) : Sealed (c :: cs) :=
  ⟨h.cons (hc 's' (by decide)), by simpa using hc⟩

theorem Untimed.append (hc : Untimed cs) (hd : Sealed ds) : Untimed (cs ++ ds) := by
  cases ds with
  | nil => rwa [List.append_nil]
  | cons d ds => exact hc.append_cons (hd.head d rfl) (untimed_cons_iff.mp hd.untimed).2

theorem Sealed.append (hc : Sealed cs) (hd : Sealed ds) : Sealed (cs ++ ds) := by
  refine ⟨hc.untimed.append hd, ?_⟩
  cases cs with
  | nil => exact hd.head
  | cons c cs => exact hc.head

theorem Untimed.append_of_not_initial (h : ∀ c ∈ cs, sameLetter 's' c = false) (hd : Untimed ds) :
    Untimed (cs ++ ds) := by
  induction cs with
  | nil => exact hd
  | cons c cs ih =>
    obtain ⟨hc, hcs⟩ := List.forall_mem_cons.mp h
    exact (ih hcs).cons hc

theorem Untimed.foreign_append (h : ∀ c ∈ cs, Foreign c) (hd : Untimed ds) :
    Untimed (cs ++ ds) :=
  hd.append_of_not_initial fun c hc => h c hc 's' (by decide)

theorem Sealed.foreign_append (hne : cs ≠ []) (h : ∀ c ∈ cs, Foreign c) (hd : Untimed ds) :
    Sealed (cs ++ ds) := by
  refine ⟨hd.foreign_append h, ?_⟩
  cases cs with
  | nil => exact absurd rfl hne
  | cons c cs => simpa using h c List.mem_cons_self

theorem sealed_of_foreign (h : ∀ c ∈ cs, Foreign c) : Sealed cs := by
  have huntimed := untimed_nil.foreign_append h
  rw [List.append_nil] at huntimed
  exact ⟨huntimed, fun c hc => h c (List.mem_of_mem_head? hc)⟩

theorem Untimed.called {name : List Char} (h : Untimed (name ++ ['('])) (hd : Sealed ds) :
    Untimed (name ++ '(' :: ds) := by
  rw [List.append_cons]
  exact h.append hd

theorem sealed_nil : Sealed [] := ⟨untimed_nil, nofun⟩

/-- What holds of texts, and of two with a mark between them, holds of all of them joined. -/
theorem holds_intercalate {P : List Char → Prop} (mark : List Char) (hnil : P [])
    (hjoin : ∀ {text rest}, P text → P rest → P (text ++ (mark ++ rest)))
    {texts : List (List Char)} (h : ∀ text ∈ texts, P text) : P (mark.intercalate texts) := by
  induction texts with
  | nil => exact hnil
  | cons text texts ih =>
    obtain ⟨htext, htexts⟩ := List.forall_mem_cons.mp h
    cases texts with
    | nil => rwa [List.intercalate_singleton]
    | cons next texts =>
      rw [List.intercalate_cons_cons, List.append_assoc]
      exact hjoin htext (ih htexts)

theorem sealed_intercalate (mark : List Char) (hmark : Sealed mark) {texts : List (List Char)}
    (h : ∀ text ∈ texts, Sealed text) : Sealed (mark.intercalate texts) :=
  holds_intercalate mark sealed_nil (fun htext hrest => htext.append (hmark.append hrest)) h

theorem untimed_intercalate (mark : List Char) (hne : mark ≠ []) (hmark : ∀ c ∈ mark, Foreign c)
    {texts : List (List Char)} (h : ∀ text ∈ texts, Untimed text) :
    Untimed (mark.intercalate texts) :=
  holds_intercalate mark untimed_nil
    (fun htext hrest => htext.append (.foreign_append hne hmark hrest)) h

theorem sealed_arguments (left mark right : List Char) (hleft : left ≠ [] ∧ ∀ c ∈ left, Foreign c)
    (hmark : mark ≠ [] ∧ ∀ c ∈ mark, Foreign c) (hright : ∀ c ∈ right, Foreign c)
    {texts : List (List Char)} (h : ∀ text ∈ texts, Untimed text) :
    Sealed (left ++ (mark.intercalate texts ++ right)) := by
  have hinside := (untimed_intercalate mark hmark.1 hmark.2 h).append (sealed_of_foreign hright)
  exact .foreign_append hleft.1 hleft.2 hinside

end Joining

section Escaping

/-- A character stays as it is, or a foreign one comes in its place and nothing behind it begins
a word. -/
def Escapes (f : Char → List Char) : Prop :=
  ∀ c, f c = [c] ∨ ∃ d rest, f c = d :: rest ∧ Foreign d ∧ ∀ e ∈ rest, sameLetter 's' e = false

variable {f : Char → List Char} {cs : List Char}

theorem Escapes.afterWord_eq_none (hf : Escapes f) {word : List Char}
    (hword : ∀ letter ∈ word, ∀ c, Foreign c → sameLetter letter c = false)
    (h : afterWord word cs = none) : afterWord word (cs.flatMap f) = none := by
  induction word generalizing cs with
  | nil => cases h
  | cons letter word ih =>
    obtain ⟨hletter, hrest⟩ := List.forall_mem_cons.mp hword
    cases cs with
    | nil => rfl
    | cons c cs =>
      rw [afterWord] at h
      rw [List.flatMap_cons]
      rcases hf c with hkept | ⟨d, rest, hescaped, hd, _⟩
      · rw [hkept, List.singleton_append, afterWord]
        split
        · rename_i hsame
          rw [if_pos hsame] at h
          exact ih hrest h
        · rfl
      · rw [hescaped, List.cons_append, afterWord, hletter d hd]
        rfl

theorem Untimed.flatMap (h : Untimed cs) (hf : Escapes f) : Untimed (cs.flatMap f) := by
  have hforeign : ∀ word ∈ [cpsWord, bpmWord], ∀ letter ∈ word, ∀ c, Foreign c →
      sameLetter letter c = false :=
    fun word hword letter hletter c hc => hc.sameLetter_eq hword letter hletter
  induction cs with
  | nil => exact untimed_nil
  | cons c cs ih =>
    obtain ⟨hc, hcs⟩ := untimed_cons_iff.mp h
    have hwords := fun word hword => hf.afterWord_eq_none (hforeign word hword) (hc word hword)
    rw [List.flatMap_cons] at hwords ⊢
    rcases hf c with hkept | ⟨d, rest, hescaped, hd, hrest⟩
    · rw [hkept, List.singleton_append] at hwords ⊢
      exact untimed_cons_iff.mpr ⟨hwords, ih hcs⟩
    · rw [hescaped, List.cons_append]
      exact ((ih hcs).append_of_not_initial hrest).cons (hd 's' (by decide))

theorem escapes_escapeInLiteral : Escapes escapeInLiteral := by
  have hhex : ∀ n < 0x20, ∀ e ∈ hexDigits 4 n, sameLetter 's' e = false := by
    have hall : ∀ n < 0x20, (hexDigits 4 n).all (fun e => !sameLetter 's' e) = true := by decide
    intro n hn e he
    simpa using List.all_eq_true.mp (hall n hn) e he
  have hbackslash : Foreign '\\' := by decide
  intro c
  unfold escapeInLiteral
  split_ifs with _ _ _ _ _ _ _ hcontrol
  rotate_right 2
  · refine .inr ⟨'\\', _, rfl, hbackslash, ?_⟩
    exact List.forall_mem_cons.mpr ⟨by decide, hhex _ hcontrol⟩
  · exact .inl rfl
  all_goals exact .inr ⟨'\\', _, rfl, hbackslash, by simp; decide⟩

/-- A text without tempo words has none as a literal. -/
theorem sealed_literal {s : String} (h : Untimed s.toList) : Sealed (literal s).toList := by
  have hquote : Foreign '"' := by decide
  have hclose : Sealed ['"'] := by decide
  rw [literal, String.toList_ofList]
  exact .cons ((h.flatMap escapes_escapeInLiteral).append hclose) hquote

end Escaping

section Searching

variable {cs : List Char} {word : List Char}

theorem Untimed.call?_eq_none (h : Untimed cs) (hword : word ∈ [cpsWord, bpmWord]) :
    call? word cs = none := by
  cases cs with
  | nil =>
    simp only [List.mem_cons, List.not_mem_nil, or_false] at hword
    rcases hword with rfl | rfl <;> rfl
  | cons c cs =>
    have hnone := (untimed_cons_iff.mp h).1 word hword
    rw [call?, hnone]
    rfl

theorem Untimed.removeAll_eq (h : Untimed cs) (hword : word ∈ [cpsWord, bpmWord]) :
    removeAll word cs = cs := by
  induction cs with
  | nil => rw [removeAll]
  | cons c cs ih =>
    have hnone := h.call?_eq_none hword
    rw [removeAll]
    split
    · rename_i hcall
      rw [hnone] at hcall
      cases hcall
    · rw [ih (untimed_cons_iff.mp h).2]

theorem Untimed.callless (h : Untimed cs) (hword : word ∈ [cpsWord, bpmWord]) :
    Callless word cs := by
  rw [← findCall_eq_none_iff]
  induction cs with
  | nil => rfl
  | cons c cs ih =>
    rw [findCall, h.call?_eq_none hword, ih (untimed_cons_iff.mp h).2]
    rfl

end Searching

end Tempo
end PatternLoom
