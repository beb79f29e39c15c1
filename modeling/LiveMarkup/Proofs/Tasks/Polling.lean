import LiveMarkup.Proofs.Tasks.Channels

/-!
# Looking at sources

A source yields a value only if it offers one at that moment (`Scheduler.Offers`), what is left of a
source that yields none offers nothing that the source did not offer (`Source.Left`), and looking
touches no machine and no channel that the source does not lead to (`Scheduler.pollTo_spec`).
-/

namespace LiveMarkup

/-! ### What a source leads to -/

namespace Source

mutual

/-- The source leads to no state of the machine `m`, and only to channels in `P`. -/
def Avoids (m : ℕ) (P : ℕ → Prop) : Source → Prop
  | channel c => P c
  | fired c => P c
  | state n _ racers => n ≠ m ∧ AvoidsAll m P racers
  | ready _ => True
  | never => True

/-- The sources lead to no state of the machine `m`, and only to channels in `P`. -/
def AvoidsAll (m : ℕ) (P : ℕ → Prop) : List Source → Prop
  | [] => True
  | source :: sources => source.Avoids m P ∧ AvoidsAll m P sources

end

theorem avoidsAll_iff {m : ℕ} {P : ℕ → Prop} {sources : List Source} :
    AvoidsAll m P sources ↔ ∀ source ∈ sources, source.Avoids m P := by
  induction sources with
  | nil => simp [AvoidsAll]
  | cons source sources ih => simp [AvoidsAll, ih]

mutual

theorem Avoids.mono {m : ℕ} {P Q : ℕ → Prop} (hPQ : ∀ c, P c → Q c) :
    ∀ {source : Source}, source.Avoids m P → source.Avoids m Q
  | channel c, h => hPQ c h
  | fired c, h => hPQ c h
  | state _ _ _, h => ⟨h.1, AvoidsAll.mono hPQ h.2⟩
  | ready _, _ => trivial
  | never, _ => trivial

theorem AvoidsAll.mono {m : ℕ} {P Q : ℕ → Prop} (hPQ : ∀ c, P c → Q c) :
    ∀ {sources : List Source}, AvoidsAll m P sources → AvoidsAll m Q sources
  | [], _ => trivial
  | _ :: _, h => ⟨h.1.mono hPQ, AvoidsAll.mono hPQ h.2⟩

end

/-- Whether a source is the receiver of a state on its own, outside of its race. -/
def IsFired : Source → Prop
  | fired _ => True
  | _ => False

end Source

/-! ### What a source offers -/

namespace Scheduler

mutual

/-- The source can yield the text as things stand: its channel holds a message with the text, or its
channel was given up and the text says so, or one of its racers offers the text. -/
def Offers (s : Scheduler) : Source → String → Prop
  | .channel c, text => (∃ message, (s.channel c).message = some message ∧ message.text = text) ∨
      (s.channel c).message = none ∧ (s.channel c).senderGone = true ∧ text = canceledText
  | .fired c, text => ∃ message, (s.channel c).message = some message ∧ message.text = text
  | .state _ _ racers, text => OffersAny s racers text
  | .ready value, text => value = text
  | .never, _ => False

/-- One of the sources can yield the text. -/
def OffersAny (s : Scheduler) : List Source → String → Prop
  | [], _ => False
  | source :: sources, text => Offers s source text ∨ OffersAny s sources text

end

variable {s s' : Scheduler}

theorem offersAny_iff {sources : List Source} {text : String} :
    s.OffersAny sources text ↔ ∃ source ∈ sources, s.Offers source text := by
  induction sources with
  | nil => simp [OffersAny]
  | cons source sources ih => simp [OffersAny, ih]

mutual

/-- What a source offers depends on the messages and the senders of channels only. -/
theorem Quiet.offers (h : Quiet s s') : ∀ {source : Source} {text : String},
    s'.Offers source text → s.Offers source text
  | .channel c, _, hoffers => by
    obtain ⟨hm, hs⟩ := h c
    rwa [Offers, hm, hs] at hoffers
  | .fired c, _, hoffers => by
    rwa [Offers, (h c).1] at hoffers
  | .state _ _ _, _, hoffers => h.offersAny hoffers
  | .ready _, _, hoffers => hoffers
  | .never, _, hoffers => hoffers

theorem Quiet.offersAny (h : Quiet s s') : ∀ {sources : List Source} {text : String},
    s'.OffersAny sources text → s.OffersAny sources text
  | [], _, hoffers => hoffers
  | _ :: _, _, hoffers => hoffers.imp h.offers h.offersAny

end

end Scheduler

namespace Source

/-- What is left of a source after a look: it offers nothing else and leads nowhere else. -/
structure Left (rest source : Source) : Prop where
  offers (s : Scheduler) (text : String) : s.Offers rest text → s.Offers source text
  avoids (m : ℕ) (P : ℕ → Prop) : source.Avoids m P → rest.Avoids m P
  isFired : rest.IsFired → source.IsFired

theorem Left.refl (source : Source) : Left source source :=
  ⟨fun _ _ => id, fun _ _ => id, id⟩

theorem Left.trans {a b c : Source} (h : Left a b) (h' : Left b c) : Left a c :=
  ⟨fun s text => h'.offers s text ∘ h.offers s text, fun m P => h.avoids m P ∘ h'.avoids m P,
    h'.isFired ∘ h.isFired⟩

/-- Each source is left of one of the others. -/
def LeftAll (rest sources : List Source) : Prop := ∀ r ∈ rest, ∃ source ∈ sources, Left r source

namespace LeftAll

variable {rest sources : List Source}

theorem refl (sources : List Source) : LeftAll sources sources := fun r hr => ⟨r, hr, .refl r⟩

theorem trans {as bs cs : List Source} (h : LeftAll as bs) (h' : LeftAll bs cs) :
    LeftAll as cs := fun a ha => by
  obtain ⟨b, hb, hab⟩ := h a ha
  obtain ⟨c, hc, hbc⟩ := h' b hb
  exact ⟨c, hc, hab.trans hbc⟩

theorem of_subset (h : rest ⊆ sources) : LeftAll rest sources := fun r hr => ⟨r, h hr, .refl r⟩

theorem cons {r source : Source} (h : Left r source) (hall : LeftAll rest sources) :
    LeftAll (r :: rest) (source :: sources) := by
  intro a ha
  rcases List.mem_cons.1 ha with rfl | ha
  · exact ⟨source, List.mem_cons_self, h⟩
  · obtain ⟨b, hb, hab⟩ := hall a ha
    exact ⟨b, List.mem_cons_of_mem _ hb, hab⟩

theorem offersAny (h : LeftAll rest sources) {s : Scheduler} {text : String}
    (hoffers : s.OffersAny rest text) : s.OffersAny sources text := by
  obtain ⟨r, hr, hr'⟩ := Scheduler.offersAny_iff.1 hoffers
  obtain ⟨source, hsource, hleft⟩ := h r hr
  exact Scheduler.offersAny_iff.2 ⟨source, hsource, hleft.offers s text hr'⟩

theorem avoidsAll (h : LeftAll rest sources) {m : ℕ} {P : ℕ → Prop}
    (havoids : AvoidsAll m P sources) : AvoidsAll m P rest := by
  rw [avoidsAll_iff] at havoids ⊢
  intro r hr
  obtain ⟨source, hsource, hleft⟩ := h r hr
  exact hleft.avoids m P (havoids source hsource)

theorem not_isFired (h : LeftAll rest sources) (hsources : ∀ source ∈ sources, ¬ source.IsFired) :
    ∀ r ∈ rest, ¬ r.IsFired := by
  intro r hr hfired
  obtain ⟨source, hsource, hleft⟩ := h r hr
  exact hsources source hsource (hleft.isFired hfired)

/-- What is left of a state is a state of what is left of its racers. -/
theorem state (h : LeftAll rest sources) (m generation : ℕ) :
    Left (.state m generation rest) (.state m generation sources) :=
  ⟨fun _ _ => h.offersAny, fun _ _ ha => ⟨ha.1, h.avoidsAll ha.2⟩, id⟩

end LeftAll

end Source

namespace Scheduler

open Source

/-! ### Dropping sources -/

variable {m : ℕ} {P : ℕ → Prop}

mutual

theorem keeps_dropSource : ∀ (source : Source) (s : Scheduler), source.Avoids m P →
    Keeps m P s (s.dropSource source)
  | .channel _, _, h => .dropReceiver h
  | .fired _, _, h => .dropReceiver h
  | .state _ _ racers, s, h => keeps_dropSources racers s h.2
  | .ready _, s, _ => .refl s m P
  | .never, s, _ => .refl s m P

theorem keeps_dropSources : ∀ (sources : List Source) (s : Scheduler), AvoidsAll m P sources →
    Keeps m P s (s.dropSources sources)
  | [], s, _ => .refl s m P
  | source :: sources, s, h =>
    (keeps_dropSource source s h.1).trans (keeps_dropSources sources _ h.2)

end

/-- What remains after an item is removed was there before. -/
theorem swapRemove_subset (sources : List Source) (i : ℕ) : swapRemove sources i ⊆ sources := by
  unfold swapRemove
  cases hlast : sources.getLast? with
  | none => simp
  | some last =>
    intro a ha
    rcases List.mem_or_eq_of_mem_set (List.dropLast_subset _ ha) with ha | rfl
    · exact ha
    · exact List.mem_of_getLast? hlast

/-! ### Looking at a source -/

/-- The machines other than `m` hold senders of channels in `P` only. -/
def Others (m : ℕ) (P : ℕ → Prop) (s : Scheduler) : Prop :=
  ∀ n ≠ m, ∀ c, (s.machine n).pending = some c → P c

theorem Others.keeps {Q : ℕ → Prop} {s s' : Scheduler} (h : Others m P s)
    (hk : Keeps m Q s s') : Others m P s' := fun n hn c hc => h n hn c (hk.pending hc)

/-- What a look at a source in `s` that leads to `s'` tells. -/
def Seen (s s' : Scheduler) (source : Source) : Polled → Prop
  | .value text => s.Offers source text
  | .canceled => source.IsFired ∧ Quiet s s'
  | .pending rest => Left rest source ∧ Quiet s s'

/-- What looks at racers in `s` that lead to `s'` tell. -/
def SeenAny (s s' : Scheduler) (racers : List Source) : Option (ℕ × Option String) → Prop
  | some (_, some text) => s.OffersAny racers text
  | some (_, none) => (∃ racer ∈ racers, racer.IsFired) ∧ Quiet s s'
  | none => Quiet s s'

/-- The racers after they were looked at are left of the racers before. -/
theorem race_spec {poll : Scheduler → Source → Polled × Scheduler}
    (hpoll : ∀ s source, Others m P s → source.Avoids m P →
      Keeps m P s (poll s source).2 ∧ Seen s (poll s source).2 source (poll s source).1)
    (racers : List Source) (s : Scheduler) (hs : Others m P s) (havoids : AvoidsAll m P racers) :
    Keeps m P s (race poll s racers).2 ∧
      SeenAny s (race poll s racers).2 racers (race poll s racers).1.1 ∧
      LeftAll (race poll s racers).1.2 racers := by
  induction racers generalizing s with
  | nil => exact ⟨.refl s m P, .refl s, .refl []⟩
  | cons racer racers ih =>
    obtain ⟨hkeeps, hseen⟩ := hpoll s racer hs havoids.1
    rw [race]
    rcases hp : poll s racer with ⟨text | _ | rest, s₁⟩
    · rw [hp] at hkeeps hseen
      exact ⟨hkeeps, Or.inl hseen, .refl _⟩
    · rw [hp] at hkeeps hseen
      exact ⟨hkeeps, ⟨⟨racer, List.mem_cons_self, hseen.1⟩, hseen.2⟩, .refl _⟩
    · rw [hp] at hkeeps hseen
      obtain ⟨hleft, hquiet⟩ := hseen
      obtain ⟨hkeeps', hseen', hleft'⟩ := ih s₁ (hs.keeps hkeeps) havoids.2
      simp only
      refine ⟨hkeeps.trans hkeeps', ?_, hleft'.cons hleft⟩
      rcases ho : (race poll s₁ racers).1.1 with _ | ⟨i, _ | text⟩
      · rw [ho] at hseen'
        exact hquiet.trans hseen'
      · rw [ho] at hseen'
        obtain ⟨⟨fired, hmem, hfired⟩, hquiet'⟩ := hseen'
        exact ⟨⟨fired, List.mem_cons_of_mem _ hmem, hfired⟩, hquiet.trans hquiet'⟩
      · rw [ho] at hseen'
        exact Or.inr (hquiet.offersAny hseen')

/-- The end of a race: the other racers are dropped, and the state is settled. -/
theorem keeps_won {n : ℕ} (hn : n ≠ m) {s : Scheduler} (hs : Others m P s) {racers : List Source}
    (havoids : AvoidsAll m P racers) (i generation : ℕ) :
    Keeps m P s ((s.dropSources (swapRemove racers i)).settle n generation) := by
  have hdrop : Keeps m P s (s.dropSources (swapRemove racers i)) :=
    keeps_dropSources _ s ((LeftAll.of_subset (swapRemove_subset racers i)).avoidsAll havoids)
  exact hdrop.trans (.settle hn (hs.keeps hdrop n hn) generation)

/-- A look at a source yields only what the source offers, leaves what is left of it, and touches
neither the machine `m` nor a channel outside of `P`. -/
theorem pollTo_spec (task fuel : ℕ) (s : Scheduler) (source : Source) (hs : Others m P s)
    (havoids : source.Avoids m P) :
    Keeps m P s (pollTo task fuel s source).2 ∧
      Seen s (pollTo task fuel s source).2 source (pollTo task fuel s source).1 := by
  induction fuel generalizing s source with
  | zero => exact ⟨.refl s m P, .refl source, .refl s⟩
  | succ fuel ih =>
    cases source with
    | ready text => exact ⟨.refl s m P, rfl⟩
    | never => exact ⟨.refl s m P, .refl _, .refl s⟩
    | channel c =>
      have hkeeps : Keeps m P s (s.receive task c).2 := .receive havoids task
      rw [pollTo]
      rcases hr : s.receive task c with ⟨message | _ | _, s₁⟩
      · rw [hr] at hkeeps
        exact ⟨hkeeps, Or.inl ⟨message, (receive_message hr).1, rfl⟩⟩
      · rw [hr] at hkeeps
        obtain ⟨hm, hgone, -⟩ := receive_canceled hr
        exact ⟨hkeeps, Or.inr ⟨hm, hgone, rfl⟩⟩
      · rw [hr] at hkeeps
        exact ⟨hkeeps, .refl _, (receive_nothing hr).2.2⟩
    | fired c =>
      have hkeeps : Keeps m P s (s.receive task c).2 := .receive havoids task
      rw [pollTo]
      rcases hr : s.receive task c with ⟨message | _ | _, s₁⟩
      · rw [hr] at hkeeps
        exact ⟨hkeeps, message, (receive_message hr).1, rfl⟩
      · rw [hr] at hkeeps
        exact ⟨hkeeps, trivial, (receive_canceled hr).2.2⟩
      · rw [hr] at hkeeps
        exact ⟨hkeeps, .refl _, (receive_nothing hr).2.2⟩
    | state n generation racers =>
      obtain ⟨hn, hracers⟩ := havoids
      obtain ⟨hkeeps, hseen, hleft⟩ := race_spec ih racers s hs hracers
      rw [pollTo]
      rcases hrace : race (pollTo task fuel) s racers with ⟨⟨_ | ⟨i, _ | text⟩, racers₁⟩, s₁⟩
      · rw [hrace] at hkeeps hseen hleft
        exact ⟨hkeeps, hleft.state n generation, hseen⟩
      -- The own receiver has lost: the race goes on without it.
      · rw [hrace] at hkeeps hseen hleft
        obtain ⟨-, hquiet⟩ := hseen
        have hleft₁ : LeftAll (swapRemove racers₁ i) racers :=
          (LeftAll.of_subset (swapRemove_subset racers₁ i)).trans hleft
        have hs₁ : Others m P s₁ := hs.keeps hkeeps
        obtain ⟨hkeeps', hseen', hleft'⟩ :=
          race_spec ih (swapRemove racers₁ i) s₁ hs₁ (hleft₁.avoidsAll hracers)
        simp only
        rcases hrace' : race (pollTo task fuel) s₁ (swapRemove racers₁ i) with
          ⟨⟨_ | ⟨j, _ | text⟩, racers₂⟩, s₂⟩
        · rw [hrace'] at hkeeps' hseen' hleft'
          exact ⟨hkeeps.trans hkeeps', (hleft'.trans hleft₁).state n generation,
            hquiet.trans hseen'⟩
        · rw [hrace'] at hkeeps' hseen' hleft'
          exact ⟨hkeeps.trans hkeeps', (hleft'.trans hleft₁).state n generation,
            hquiet.trans hseen'.2⟩
        · rw [hrace'] at hkeeps' hseen' hleft'
          have hwon := keeps_won hn (hs₁.keeps hkeeps')
            ((hleft'.trans hleft₁).avoidsAll hracers) j generation
          exact ⟨(hkeeps.trans hkeeps').trans hwon,
            hleft₁.offersAny (hquiet.offersAny hseen')⟩
      · rw [hrace] at hkeeps hseen hleft
        have hwon := keeps_won hn (hs.keeps hkeeps) (hleft.avoidsAll hracers) i generation
        exact ⟨hkeeps.trans hwon, hseen⟩

end Scheduler

end LiveMarkup
