import PatternLoom.Midi.File
import PatternLoom.Proofs.Result

/-! What decoding gives. Content that cannot be decoded is refused, but for key signatures,
which have a failure of their own. The numbers in decoded messages are those of their bytes. -/

namespace PatternLoom
namespace Midi

/-- The numbers of a message are as small as their bytes make them, and no meter is over zero. -/
def Message.Sane : Message → Prop
  | .tempo microseconds => microseconds < 2 ^ 24
  | .timeSignature numerator denominator => numerator < 256 ∧ ∃ power < 256, denominator = 2 ^ power
  | _ => True

def SaneEvents (events : List Event) : Prop := ∀ e ∈ events, e.message.Sane

namespace Decoder

/-- Every value that a decoder reads has a property, and it fails in no unexpected way. -/
def Gives {α : Type} (d : Decoder α) (P : α → Prop) : Prop :=
  ∀ c, match d c with
    | .ok (a, _) => P a
    | .error e => e = .refusedImport .undecodable ∨ e = .keySignature

namespace Gives

variable {α β : Type} {d : Decoder α} {P : α → Prop} {Q : β → Prop}

theorem pure {a : α} (h : P a) : Gives (Pure.pure a : Decoder α) P := fun _ => h

theorem refuse : Gives (Decoder.refuse : Decoder α) P := fun _ => .inl rfl

theorem bind {f : α → Decoder β} (hd : Gives d P) (hf : ∀ a, P a → Gives (f a) Q) :
    Gives (d >>= f) Q := by
  intro c
  have hc := hd c
  change match (d c >>= fun p => f p.1 p.2) with
    | .ok (b, _) => Q b
    | .error e => e = .refusedImport .undecodable ∨ e = .keySignature
  cases hdc : d c with
  | error e =>
    rw [hdc] at hc
    exact hc
  | ok p =>
    rw [hdc] at hc
    exact hf p.1 hc p.2

theorem get : Gives (MonadState.get : Decoder Cursor) fun _ => True := fun _ => trivial

end Gives

theorem byte_gives : Gives byte (· < 256) := by
  intro c
  unfold byte
  cases c.rest with
  | nil => exact .inl rfl
  | cons b rest => exact b.toNat_lt

theorem bytes_gives (n : Nat) : Gives (bytes n) fun bs => ∀ b ∈ bs, b < 256 := by
  induction n with
  | zero => exact .pure (by simp)
  | succ n ih =>
    refine byte_gives.bind fun b hb => ih.bind fun bs hbs => .pure ?_
    exact List.forall_mem_cons.mpr ⟨hb, hbs⟩

theorem variableLength_gives : Gives variableLength fun _ => True := by
  intro c
  unfold variableLength
  fun_induction variableLengthFrom 0 c.position c.rest with
  | case1 => exact .inl rfl
  | case2 => trivial
  | case3 => assumption

theorem block_gives : Gives block fun bs => ∀ b ∈ bs, b < 256 := by
  refine variableLength_gives.bind fun length _ => ?_
  split
  · exact .refuse
  · exact bytes_gives length

theorem chunkHeader_gives : Gives chunkHeader fun _ => True :=
  (bytes_gives 4).bind fun _ _ => (bytes_gives 4).bind fun _ _ => .pure trivial

theorem upTo_gives (n : Nat) : Gives (upTo n) fun _ => True := fun _ => trivial

theorem metaMessage_gives (type : Nat) {data : List Nat} (h : ∀ b ∈ data, b < 256) :
    Gives (metaMessage type data) fun m => ∀ message ∈ m, message.Sane := by
  have hother : ∀ m : Option Message, m = none ∨ m = some .other → ∀ message ∈ m, message.Sane := by
    rintro _ (rfl | rfl) <;> simp [Message.Sane]
  unfold metaMessage
  split
  · exact .pure (by simp [Message.Sane])
  · refine .pure ?_
    rintro _ ⟨⟩
    simp only [List.forall_mem_cons] at h
    simp only [Message.Sane, bigEndian, List.foldl_cons, List.foldl_nil]
    omega
  · exact .refuse
  · split
    · refine .pure ?_
      rintro _ ⟨⟩
      exact ⟨h _ List.mem_cons_self, _, h _ (List.mem_cons_of_mem _ List.mem_cons_self), rfl⟩
    · exact .refuse
  · exact .refuse
  · split
    · exact .pure (hother _ (.inr rfl))
    · exact fun _ => .inr rfl
  · exact .refuse
  · split
    · exact .refuse
    · exact .pure (hother _ (.inr rfl))
  · exact .refuse
  · exact .refuse
  · exact .pure (hother _ (.inr rfl))
  · exact .refuse
  · exact .pure (hother _ (.inr rfl))
  · exact .pure (hother _ (by split <;> simp))

theorem plainMessage_gives (status : Nat) (first : List Nat) :
    Gives (plainMessage status first) Message.Sane := by
  have hsane : ∀ data, (channelMessage status data).Sane := by
    intro data
    unfold channelMessage
    dsimp only
    split <;> trivial
  unfold plainMessage
  split
  · exact block_gives.bind fun _ _ => .pure trivial
  · split
    · exact .refuse
    · split
      · exact .refuse
      · exact (bytes_gives _).bind fun _ _ => .pure (hsane _)

theorem event_gives (running : Option Nat) :
    Gives (event running) fun p => p.1.message.Sane := by
  refine variableLength_gives.bind fun delta _ => byte_gives.bind fun status _ => ?_
  split
  · refine byte_gives.bind fun type _ => block_gives.bind fun data hdata =>
      (metaMessage_gives type hdata).bind fun m hm => ?_
    split
    · exact .pure (hm _ rfl)
    · exact .pure trivial
  · split
    · split
      · exact .refuse
      · exact (plainMessage_gives _ _).bind fun _ h => .pure h
    · exact (plainMessage_gives _ _).bind fun _ h => .pure h

theorem eventsUntil_gives {stop : Nat} {running : Option Nat} {read : List Event} {fuel : Nat}
    (h : SaneEvents read) : Gives (eventsUntil stop running read fuel) SaneEvents := by
  induction fuel generalizing running read with
  | zero => exact .refuse
  | succ fuel ih =>
    refine Gives.get.bind fun c _ => ?_
    split
    · exact .pure fun e he => h e (List.mem_reverse.mp he)
    · exact (event_gives running).bind fun p hp => ih (List.forall_mem_cons.mpr ⟨hp, h⟩)

theorem track_gives : Gives track SaneEvents := by
  refine chunkHeader_gives.bind ?_
  rintro ⟨name, size⟩ _
  dsimp only
  split
  · exact .refuse
  · exact Gives.get.bind fun c _ => eventsUntil_gives (by simp [SaneEvents])

theorem tracks_gives (n : Nat) : Gives (tracks n) fun ts => ∀ t ∈ ts, SaneEvents t := by
  induction n with
  | zero => exact .pure (by simp)
  | succ n ih =>
    refine track_gives.bind fun t ht => ih.bind fun ts hts => .pure ?_
    exact List.forall_mem_cons.mpr ⟨ht, hts⟩

theorem file_gives : Gives file fun f => ∀ t ∈ f.tracks, SaneEvents t := by
  refine chunkHeader_gives.bind ?_
  rintro ⟨name, size⟩ _
  dsimp only
  split
  · exact .refuse
  · refine (upTo_gives _).bind fun header _ => ?_
    split
    · exact (tracks_gives _).bind fun ts hts => .pure hts
    · exact .refuse

end Decoder

theorem File.decode_sane {data : List UInt8} {file : File} (h : File.decode data = .ok file) :
    ∀ t ∈ file.tracks, SaneEvents t := by
  obtain ⟨p, hp, hfile⟩ := bind_eq_ok.mp h
  obtain rfl := pure_eq_ok.mp hfile
  have hgives := Decoder.file_gives ⟨data, 0⟩
  rw [hp] at hgives
  exact hgives

theorem File.decode_error {data : List UInt8} {e : Failure} (h : File.decode data = .error e) :
    e = .refusedImport .undecodable ∨ e = .keySignature := by
  rcases bind_eq_error.mp h with hfile | ⟨_, _, hpure⟩
  · have hgives := Decoder.file_gives ⟨data, 0⟩
    rw [hfile] at hgives
    exact hgives
  · cases hpure

end Midi
end PatternLoom
