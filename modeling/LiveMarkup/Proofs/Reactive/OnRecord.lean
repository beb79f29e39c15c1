import LiveMarkup.Proofs.Reactive.Readings

/-!
# Values that are read on the record

A value that reads all its signals on the record depends on nothing else: it comes to the same, and
reads the same signals, as long as those that it has read keep their values and names lead to the
same signals (`Spec.reading_congr`).

Whatever a value comes to, binding it to a text or to an attribute node at most writes its text
there (`Expression.IsPlain`).
-/

namespace LiveMarkup

variable {w w' : World} {name : String}

/-! ### Values that read on the record -/

mutual

/-- Whether a value is made of constants and of what is read on the record. -/
def Spec.isOnRecord : Spec → Bool
  | .list items => Spec.areOnRecord items
  | .signal _ .untracked => false
  | .untracked _ => false
  | .log _ value => value.isOnRecord
  | .choose _ _ same other => same.isOnRecord && other.isOnRecord
  | .concat parts => Spec.areOnRecord parts
  | spec => spec.isReading

/-- Whether several values are made of constants and of what is read on the record. -/
def Spec.areOnRecord : List Spec → Bool
  | [] => true
  | spec :: specs => spec.isOnRecord && Spec.areOnRecord specs

end

mutual

theorem Spec.isReading_of_isOnRecord : ∀ spec : Spec, spec.isOnRecord = true →
    spec.isReading = true
  | .empty, _ | .text _, _ | .integer _ _ _, _ | .single _, _ | .double _, _ => rfl
  | .signal _ .tracked, _ => rfl
  | .list items, h => Spec.areReading_of_areOnRecord items h
  | .log _ value, h => Spec.isReading_of_isOnRecord value h
  | .choose _ _ same other, h => by
    obtain ⟨hsame, hother⟩ := Bool.and_eq_true_iff.1 h
    exact Bool.and_eq_true_iff.2
      ⟨Spec.isReading_of_isOnRecord same hsame, Spec.isReading_of_isOnRecord other hother⟩
  | .concat parts, h => Spec.areReading_of_areOnRecord parts h

theorem Spec.areReading_of_areOnRecord : ∀ specs : List Spec, Spec.areOnRecord specs = true →
    Spec.areReading specs = true
  | [], _ => rfl
  | spec :: specs, h => by
    obtain ⟨hspec, hspecs⟩ := Bool.and_eq_true_iff.1 h
    exact Bool.and_eq_true_iff.2
      ⟨Spec.isReading_of_isOnRecord spec hspec, Spec.areReading_of_areOnRecord specs hspecs⟩

end

/-! ### What a value depends on -/

/-- Names lead to the same signals, and the signals of a list have the same values. -/
structure World.Agrees (w w' : World) (reads : List ℕ) : Prop where
  names_eq : w'.signals.names = w.signals.names
  value_eq {s : ℕ} : s ∈ reads → w'.signals.reactive.value s = w.signals.reactive.value s

theorem World.Agrees.mono {reads reads' : List ℕ} (h : w.Agrees w' reads) (hsub : reads' ⊆ reads) :
    w.Agrees w' reads' :=
  ⟨h.names_eq, fun hs => h.value_eq (hsub hs)⟩

theorem Reading.result_bind {α β : Type} (ρ : Reading α) (φ : α → Reading β) :
    (ρ >>= φ).result = (φ ρ.result).result := rfl

theorem Reading.bind_congr {α β : Type} {ρ ρ' : Reading α} {φ φ' : α → Reading β} (hρ : ρ' = ρ)
    (hφ : φ' ρ.result = φ ρ.result) : (ρ' >>= φ') = (ρ >>= φ) := by
  subst hρ
  change Reading.mk (φ' ρ'.result).result (ρ'.notes ++ (φ' ρ'.result).notes)
    (ρ'.reads ++ (φ' ρ'.result).reads) = _
  rw [hφ]
  rfl

/-- To read a signal on the record depends on that signal. -/
theorem World.readingOf_congr (h : w.Agrees w' (w.readingOf name .tracked).reads) :
    w'.readingOf name .tracked = w.readingOf name .tracked := by
  have hsignal : w'.signals.signal? name false = w.signals.signal? name false := by
    rw [Signals.signal?, h.names_eq, Signals.signal?]
  have hvalue := @h.value_eq
  unfold World.readingOf at hvalue ⊢
  rw [hsignal]
  revert hvalue
  rcases w.signals.signal? name false with failure | s
  · exact fun _ => rfl
  · intro hvalue
    dsimp only
    rw [hvalue (List.mem_singleton_self s)]

mutual

/-- What a value comes to depends on the signals that it has on record. -/
theorem Spec.reading_congr : ∀ spec : Spec, spec.isOnRecord = true →
    w.Agrees w' (spec.reading w).reads → spec.reading w' = spec.reading w
  | .empty, _, _ | .text _, _, _ | .integer _ _ _, _, _ | .single _, _, _ | .double _, _, _ => rfl
  | .list items, h, hw => by
    have hitems : w.Agrees w' (Spec.readingAll w items).reads :=
      hw.mono (List.subset_append_left _ _)
    exact Reading.bind_congr (Spec.readingAll_congr items h hitems) rfl
  | .signal name .tracked, _, hw => by
    have hname : w.Agrees w' (w.readingOf name .tracked).reads :=
      hw.mono (List.subset_append_left _ _)
    exact Reading.bind_congr (World.readingOf_congr hname) rfl
  | .log _ value, h, hw => by
    have hvalue : w.Agrees w' (value.reading w).reads := hw.mono (List.subset_append_right _ _)
    exact Reading.bind_congr rfl (Spec.reading_congr value h hvalue)
  | .choose name value same other, h, hw => by
    obtain ⟨hsame, hother⟩ := Bool.and_eq_true_iff.1 h
    have hname : w.Agrees w' (w.readingOf name .tracked).reads :=
      hw.mono (List.subset_append_left _ _)
    have hrest := hw.mono (List.subset_append_right _ _)
    refine Reading.bind_congr (World.readingOf_congr hname) ?_
    revert hrest
    rcases (w.readingOf name .tracked).result with _ | v
    · exact fun _ => rfl
    · dsimp only
      cases v.equal value with
      | true => exact Spec.reading_congr same hsame
      | false => exact Spec.reading_congr other hother
  | .concat parts, h, hw => by
    have hparts : w.Agrees w' (Spec.readingAll w parts).reads :=
      hw.mono (List.subset_append_left _ _)
    exact Reading.bind_congr (Spec.readingAll_congr parts h hparts) rfl

theorem Spec.readingAll_congr : ∀ specs : List Spec, Spec.areOnRecord specs = true →
    w.Agrees w' (Spec.readingAll w specs).reads → Spec.readingAll w' specs = Spec.readingAll w specs
  | [], _, _ => rfl
  | spec :: specs, h, hw => by
    obtain ⟨hspec, hspecs⟩ := Bool.and_eq_true_iff.1 h
    have hfirst : w.Agrees w' (spec.reading w).reads := hw.mono (List.subset_append_left _ _)
    have hrest := hw.mono (List.subset_append_right (spec.reading w).reads _)
    have hothers : w.Agrees w' (Spec.readingAll w specs).reads :=
      hrest.mono (List.subset_append_left _ _)
    refine Reading.bind_congr (Spec.reading_congr spec hspec hfirst) ?_
    exact Reading.bind_congr (Spec.readingAll_congr specs hspecs hothers) rfl

end

/-! ### What can be shown -/

/-- Whether an expression holds no channel and is nothing, a primitive value, a list or a value that
is refused. -/
def Expression.IsPlain : Expression → Prop
  | .empty | .text _ | .number _ | .bigint _ => True
  | .iterable items => Expression.channelsAll items = []
  | .function (.fail _) => True
  | _ => False

theorem Expression.isPlain_ofValue (v : Value) : (Expression.ofValue v).IsPlain := by
  cases v <;> trivial

theorem Expression.isPlain_ofInteger (width : ℕ) (n : ℤ) :
    (Expression.ofInteger width n).IsPlain := by
  unfold Expression.ofInteger
  split_ifs <;> trivial

/-- What is made of constants and of what is read is plain. -/
theorem Spec.isPlain_reading : ∀ spec : Spec, spec.isReading = true →
    (spec.reading w).result.IsPlain
  | .empty, _ | .text _, _ | .single _, _ | .double _, _ => trivial
  | .integer _ width n, _ => Expression.isPlain_ofInteger width n
  | .list items, h => Run.channels_readingAll items h
  | .signal name mode, _ => by
    rw [Spec.reading, Reading.result_bind]
    rcases (w.readingOf name mode).result with _ | v
    · trivial
    · exact Expression.isPlain_ofValue v
  | .untracked value, h => Spec.isPlain_reading value h
  | .log _ value, h => Spec.isPlain_reading value h
  | .choose name value same other, h => by
    obtain ⟨hsame, hother⟩ := Bool.and_eq_true_iff.1 h
    rw [Spec.reading, Reading.result_bind]
    rcases (w.readingOf name .tracked).result with _ | v
    · trivial
    · dsimp only
      cases v.equal value with
      | true => exact Spec.isPlain_reading same hsame
      | false => exact Spec.isPlain_reading other hother
  | .concat _, _ => trivial

end LiveMarkup
