import Mathlib.Data.List.Forall2

/-!
# Reasoning about work that may fail

Work with a state and failures keeps what was done before a failure. `Yields` says what such work
comes to from one state, whether it answers or fails; its rules follow the way work is composed.
`Moves` says that the states before and after are related, whatever comes of the work.
-/

namespace GraphVault

variable {ε σ α β : Type}

theorem exists_left_of_forall₂ {r : α → β → Prop} {as : List α} {bs : List β}
    (h : List.Forall₂ r as bs) : ∀ b ∈ bs, ∃ a ∈ as, r a b := by
  induction h with
  | nil => exact nofun
  | cons hab _ ih =>
    intro c hc
    cases List.mem_cons.1 hc with
    | inl heq => exact ⟨_, List.mem_cons_self, heq ▸ hab⟩
    | inr hc =>
      obtain ⟨a, ha, hac⟩ := ih c hc
      exact ⟨a, List.mem_cons_of_mem _ ha, hac⟩

theorem exists_right_of_forall₂ {r : α → β → Prop} {as : List α} {bs : List β}
    (h : List.Forall₂ r as bs) : ∀ a ∈ as, ∃ b ∈ bs, r a b :=
  exists_left_of_forall₂ (List.Forall₂.flip h)

/-- A place in a list with one item more is the last one or one before. -/
theorem append_singleton_eq_iff {items front back : List α} {a x : α} :
    items ++ [a] = front ++ x :: back ↔ back = [] ∧ items = front ∧ a = x ∨
      ∃ rest, back = rest ++ [a] ∧ items = front ++ x :: rest := by
  rcases List.eq_nil_or_concat back with rfl | ⟨rest, last, rfl⟩
  · simp
  · have hsplit : front ++ x :: (rest ++ [last]) = front ++ x :: rest ++ [last] := by simp
    rw [List.concat_eq_append, hsplit]
    constructor
    · intro heq
      obtain ⟨hitems, hlast⟩ := List.append_inj' heq rfl
      exact .inr ⟨rest, by rw [hlast], hitems⟩
    · rintro (⟨hnil, -⟩ | ⟨rest', heq, rfl⟩)
      · simp at hnil
      · obtain ⟨rfl, hlast⟩ := List.append_inj' heq rfl
        rw [hlast]

/-- Run from `s`, the work ends in an answer with `post` or in a failure with `fail`. -/
def Yields (work : EStateM ε σ α) (s : σ) (post : α → σ → Prop) (fail : ε → σ → Prop) : Prop :=
  match work s with
  | .ok a t => post a t
  | .error e t => fail e t

theorem Yields.mono {work : EStateM ε σ α} {s : σ} {post post' : α → σ → Prop}
    {fail fail' : ε → σ → Prop} (h : Yields work s post fail)
    (hpost : ∀ a t, post a t → post' a t) (hfail : ∀ e t, fail e t → fail' e t) :
    Yields work s post' fail' := by
  unfold Yields at *
  split at h
  · exact hpost _ _ h
  · exact hfail _ _ h

/-- What the work comes to is the answer and the state that it ends in. -/
theorem Yields.remember {work : EStateM ε σ α} {s : σ} {post : α → σ → Prop} {fail : ε → σ → Prop}
    (h : Yields work s post fail) :
    Yields work s (fun a t => post a t ∧ work s = .ok a t) fail := by
  unfold Yields at *
  cases hresult : work s with
  | ok a t =>
    rw [hresult] at h
    exact ⟨h, rfl⟩
  | error e t =>
    rw [hresult] at h
    exact h

/-- What is known about the same work from two sides. -/
theorem Yields.and {work : EStateM ε σ α} {s : σ} {post post' : α → σ → Prop}
    {fail fail' : ε → σ → Prop} (h : Yields work s post fail) (h' : Yields work s post' fail') :
    Yields work s (fun a t => post a t ∧ post' a t) fun e t => fail e t ∧ fail' e t := by
  unfold Yields at *
  cases hresult : work s with
  | ok a t => simp_all
  | error e t => simp_all

/-- Work that cannot fail comes to an answer. -/
theorem Yields.exists_ok {work : EStateM ε σ α} {s : σ} {post : α → σ → Prop}
    (h : Yields work s post fun _ _ => False) : ∃ a t, work s = .ok a t ∧ post a t := by
  unfold Yields at h
  cases hresult : work s with
  | ok a t =>
    rw [hresult] at h
    exact ⟨a, t, rfl, h⟩
  | error e t =>
    rw [hresult] at h
    exact h.elim

/-- Work that cannot succeed comes to a failure. -/
theorem Yields.exists_error {work : EStateM ε σ α} {s : σ} {fail : ε → σ → Prop}
    (h : Yields work s (fun _ _ => False) fail) : ∃ e t, work s = .error e t ∧ fail e t := by
  unfold Yields at h
  cases hresult : work s with
  | ok a t =>
    rw [hresult] at h
    exact h.elim
  | error e t =>
    rw [hresult] at h
    exact ⟨e, t, rfl, h⟩

/-- What work comes to that is known to succeed. -/
theorem yields_iff_of_ok {work : EStateM ε σ α} {s t : σ} {a : α} (h : work s = .ok a t)
    {post : α → σ → Prop} {fail : ε → σ → Prop} : Yields work s post fail ↔ post a t := by
  rw [Yields, h]

/-- What work comes to that is known to fail. -/
theorem yields_iff_of_error {work : EStateM ε σ α} {s t : σ} {e : ε} (h : work s = .error e t)
    {post : α → σ → Prop} {fail : ε → σ → Prop} : Yields work s post fail ↔ fail e t := by
  rw [Yields, h]

@[simp] theorem yields_pure {a : α} {s : σ} {post : α → σ → Prop} {fail : ε → σ → Prop} :
    Yields (pure a) s post fail ↔ post a s := Iff.rfl

@[simp] theorem yields_throw {e : ε} {s : σ} {post : α → σ → Prop} {fail : ε → σ → Prop} :
    Yields (throw e) s post fail ↔ fail e s := Iff.rfl

@[simp] theorem yields_get {s : σ} {post : σ → σ → Prop} {fail : ε → σ → Prop} :
    Yields get s post fail ↔ post s s := Iff.rfl

@[simp] theorem yields_set {s t : σ} {post : Unit → σ → Prop} {fail : ε → σ → Prop} :
    Yields (set t) s post fail ↔ post () t := Iff.rfl

@[simp] theorem yields_modify {f : σ → σ} {s : σ} {post : Unit → σ → Prop}
    {fail : ε → σ → Prop} :
    Yields (modify f) s post fail ↔ post () (f s) := Iff.rfl

@[simp] theorem yields_bind {work : EStateM ε σ α} {next : α → EStateM ε σ β} {s : σ}
    {post : β → σ → Prop} {fail : ε → σ → Prop} :
    Yields (work >>= next) s post fail ↔
      Yields work s (fun a t => Yields (next a) t post fail) fail := by
  simp only [Yields, bind, EStateM.bind]
  cases work s <;> rfl

@[simp] theorem yields_map {work : EStateM ε σ α} {f : α → β} {s : σ}
    {post : β → σ → Prop} {fail : ε → σ → Prop} :
    Yields (f <$> work) s post fail ↔ Yields work s (fun a t => post (f a) t) fail := by
  simp only [Yields, Functor.map, EStateM.map]
  cases work s <;> rfl

@[simp] theorem yields_ofExcept_ok {a : α} {s : σ} {post : α → σ → Prop}
    {fail : ε → σ → Prop} :
    Yields (MonadExcept.ofExcept (.ok a)) s post fail ↔ post a s := Iff.rfl

@[simp] theorem yields_ofExcept_error {e : ε} {s : σ} {post : α → σ → Prop}
    {fail : ε → σ → Prop} :
    Yields (MonadExcept.ofExcept (.error e)) s post fail ↔ fail e s := Iff.rfl

theorem yields_ofExcept {result : Except ε α} {s : σ} {post : α → σ → Prop}
    {fail : ε → σ → Prop} (hok : ∀ a, result = .ok a → post a s)
    (herror : ∀ e, result = .error e → fail e s) :
    Yields (MonadExcept.ofExcept result) s post fail := by
  cases result with
  | ok a => exact hok a rfl
  | error e => exact herror e rfl

@[simp] theorem yields_tryCatch {work : EStateM ε σ α} {handle : ε → EStateM ε σ α} {s : σ}
    {post : α → σ → Prop} {fail : ε → σ → Prop} :
    Yields (tryCatch work handle) s post fail ↔
      Yields work s post fun e t => Yields (handle e) t post fail := by
  simp only [Yields, tryCatch, tryCatchThe, MonadExceptOf.tryCatch, EStateM.tryCatch]
  cases work s <;> rfl

/-- Where a loop fails, it has come to the item that fails. -/
theorem exists_of_forM_error {items : List α} {round : α → EStateM ε σ PUnit} {s t : σ} {e : ε}
    (h : items.forM round s = .error e t) :
    ∃ front item back between, items = front ++ item :: back ∧
      front.forM round s = .ok ⟨⟩ between ∧ round item between = .error e t := by
  induction items generalizing s with
  | nil => cases h
  | cons item items ih =>
    simp only [List.forM_eq_forM, List.forM_cons, bind, EStateM.bind] at h
    cases hround : round item s with
    | error failure after =>
      rw [hround] at h
      cases h
      exact ⟨[], item, items, s, rfl, rfl, hround⟩
    | ok _ after =>
      rw [hround] at h
      obtain ⟨front, other, back, between, rfl, hfront, hother⟩ := ih h
      refine ⟨item :: front, other, back, between, rfl, ?_, hother⟩
      simp only [List.forM_eq_forM, List.forM_cons, bind, EStateM.bind, hround]
      exact hfront

/-- Where no round of a loop undoes what another one has done, all is done in the end. -/
theorem yields_forM_done {inv : σ → Prop} {done : α → σ → Prop} {fail : ε → σ → Prop}
    {items : List α} {round : α → EStateM ε σ PUnit}
    (h : ∀ a ∈ items, ∀ s, inv s → Yields (round a) s
      (fun _ t => inv t ∧ done a t ∧ ∀ b, done b s → done b t) fail) {s : σ} (hs : inv s) :
    Yields (items.forM round) s (fun _ t => inv t ∧ ∀ a ∈ items, done a t) fail := by
  -- for the induction, what was done before the loop stays done as well
  suffices hall : Yields (items.forM round) s
      (fun _ t => inv t ∧ (∀ a ∈ items, done a t) ∧ ∀ b, done b s → done b t) fail from
    hall.mono (fun _ _ ht => ⟨ht.1, ht.2.1⟩) fun _ _ ht => ht
  induction items generalizing s with
  | nil => exact ⟨hs, nofun, fun _ hb => hb⟩
  | cons a items ih =>
    rw [List.forM_eq_forM, List.forM_cons, yields_bind]
    apply (h a List.mem_cons_self s hs).mono ?_ fun _ _ ht => ht
    rintro - t ⟨ht, ha, hkept⟩
    apply (ih (fun b hb => h b (List.mem_cons_of_mem a hb)) ht).mono ?_ fun _ _ hu => hu
    rintro - u ⟨hu, hrest, hkept'⟩
    refine ⟨hu, fun b hb => ?_, fun b hb => hkept' b (hkept b hb)⟩
    cases List.mem_cons.1 hb with
    | inl heq => exact heq ▸ hkept' a ha
    | inr hmem => exact hrest b hmem

/-- Whatever comes of the work, the states before and after it are related. -/
def Moves (r : σ → σ → Prop) (work : EStateM ε σ α) : Prop :=
  ∀ s, Yields work s (fun _ t => r s t) fun _ t => r s t

namespace Moves

variable {r : σ → σ → Prop} {work : EStateM ε σ α}

theorem mono {r' : σ → σ → Prop} (h : Moves r work) (hr : ∀ s t, r s t → r' s t) :
    Moves r' work := fun s => (h s).mono (fun _ t => hr s t) fun _ t => hr s t

section Preorder

variable [Std.Refl r] [Trans r r r]

omit [Trans r r r] in
theorem pure (a : α) : Moves r (Pure.pure a : EStateM ε σ α) := fun s => Std.Refl.refl s

omit [Trans r r r] in
theorem throw (e : ε) : Moves r (throw e : EStateM ε σ α) := fun s => Std.Refl.refl s

omit [Trans r r r] in
theorem get : Moves r (get : EStateM ε σ σ) := fun s => Std.Refl.refl s

omit [Trans r r r] in
theorem ofExcept (result : Except ε α) :
    Moves r (MonadExcept.ofExcept result : EStateM ε σ α) := fun s =>
  yields_ofExcept (fun _ _ => Std.Refl.refl s) fun _ _ => Std.Refl.refl s

omit [Std.Refl r] in
theorem bind {next : α → EStateM ε σ β} (hwork : Moves r work) (hnext : ∀ a, Moves r (next a)) :
    Moves r (work >>= next) := by
  intro s
  rw [yields_bind]
  refine (hwork s).mono (fun a t ht => ?_) (fun _ _ ht => ht)
  exact (hnext a t).mono (fun _ _ hu => Trans.trans ht hu) (fun _ _ hu => Trans.trans ht hu)

omit [Std.Refl r] in
theorem tryCatch {handle : ε → EStateM ε σ α} (hwork : Moves r work)
    (hhandle : ∀ e, Moves r (handle e)) : Moves r (tryCatch work handle) := by
  intro s
  rw [yields_tryCatch]
  refine (hwork s).mono (fun _ _ ht => ht) (fun e t ht => ?_)
  exact (hhandle e t).mono (fun _ _ hu => Trans.trans ht hu) (fun _ _ hu => Trans.trans ht hu)

omit [Std.Refl r] [Trans r r r] in
theorem map {f : α → β} (hwork : Moves r work) : Moves r (f <$> work) := fun s =>
  yields_map.2 (hwork s)

theorem forM {items : List α} {round : α → EStateM ε σ PUnit} (h : ∀ a ∈ items, Moves r (round a)) :
    Moves r (items.forM round) := by
  induction items with
  | nil => exact pure _
  | cons a items ih =>
    exact bind (h a (by simp)) fun _ => ih fun b hb => h b (by simp [hb])

theorem mapM {items : List α} {round : α → EStateM ε σ β} (h : ∀ a ∈ items, Moves r (round a)) :
    Moves r (items.mapM round) := by
  induction items with
  | nil => exact pure _
  | cons a items ih =>
    rw [List.mapM_cons]
    refine bind (h a (by simp)) fun b => ?_
    exact bind (ih fun b hb => h b (by simp [hb])) fun bs => pure _

end Preorder

end Moves

/-- Work that keeps an invariant, whose answers are good, and that fails only as is tolerated. -/
structure Keeps (inv : σ → Prop) (tolerated : ε → Prop) (good : α → Prop)
    (work : EStateM ε σ α) : Prop where
  yields : ∀ s, inv s → Yields work s (fun a t => inv t ∧ good a) fun e t => inv t ∧ tolerated e

namespace Keeps

variable {inv : σ → Prop} {tolerated : ε → Prop} {good : α → Prop} {work : EStateM ε σ α}

theorem mono {good' : α → Prop} {tolerated' : ε → Prop} (h : Keeps inv tolerated good work)
    (hgood : ∀ a, good a → good' a) (htolerated : ∀ e, tolerated e → tolerated' e) :
    Keeps inv tolerated' good' work := by
  constructor
  intro s hs
  apply (h.yields s hs).mono
  · intro a t ha
    exact ⟨ha.1, hgood a ha.2⟩
  · intro e t he
    exact ⟨he.1, htolerated e he.2⟩

theorem pure {a : α} (h : good a) : Keeps inv tolerated good (Pure.pure a : EStateM ε σ α) :=
  ⟨fun _ hs => ⟨hs, h⟩⟩

theorem throw {e : ε} (h : tolerated e) : Keeps inv tolerated good (throw e : EStateM ε σ α) :=
  ⟨fun _ hs => ⟨hs, h⟩⟩

theorem ofExcept {result : Except ε α} (hok : ∀ a, result = .ok a → good a)
    (herror : ∀ e, result = .error e → tolerated e) :
    Keeps inv tolerated good (MonadExcept.ofExcept result : EStateM ε σ α) := by
  constructor
  intro s hs
  exact yields_ofExcept (fun a ha => ⟨hs, hok a ha⟩) fun e he => ⟨hs, herror e he⟩

theorem bind {good' : β → Prop} {next : α → EStateM ε σ β} (hwork : Keeps inv tolerated good work)
    (hnext : ∀ a, good a → Keeps inv tolerated good' (next a)) :
    Keeps inv tolerated good' (work >>= next) := by
  constructor
  intro s hs
  rw [yields_bind]
  exact (hwork.yields s hs).mono (fun a t ha => (hnext a ha.2).yields t ha.1) fun _ _ he => he

theorem map {good' : β → Prop} {f : α → β} (hwork : Keeps inv tolerated good work)
    (hf : ∀ a, good a → good' (f a)) : Keeps inv tolerated good' (f <$> work) := by
  constructor
  intro s hs
  rw [yields_map]
  exact (hwork.yields s hs).mono (fun a _ ha => ⟨ha.1, hf a ha.2⟩) fun _ _ he => he

theorem tryCatch {caught : ε → Prop} {handle : ε → EStateM ε σ α}
    (hwork : Keeps inv caught good work)
    (hhandle : ∀ e, caught e → Keeps inv tolerated good (handle e)) :
    Keeps inv tolerated good (tryCatch work handle) := by
  constructor
  intro s hs
  rw [yields_tryCatch]
  exact (hwork.yields s hs).mono (fun _ _ ha => ha) fun e t he => (hhandle e he.2).yields t he.1

/-- Work keeps what it keeps and moves on from where it started. -/
theorem and_moves {r : σ → σ → Prop} [Trans r r r] (hwork : Keeps inv tolerated good work)
    (hmoves : Moves r work) (start : σ) :
    Keeps (fun s => inv s ∧ r start s) tolerated good work := by
  constructor
  rintro s ⟨hs, hstart⟩
  apply ((hwork.yields s hs).and (hmoves s)).mono
  · exact fun _ _ h => ⟨⟨h.1.1, Trans.trans hstart h.2⟩, h.1.2⟩
  · exact fun _ _ h => ⟨⟨h.1.1, Trans.trans hstart h.2⟩, h.1.2⟩

/-- What is done next may depend on the present state. -/
theorem bind_get {next : σ → EStateM ε σ α}
    (h : ∀ s, inv s → Yields (next s) s (fun a t => inv t ∧ good a) fun e t => inv t ∧ tolerated e) :
    Keeps inv tolerated good (get >>= next) := by
  constructor
  intro s hs
  rw [yields_bind]
  exact h s hs

theorem forM {items : List α} {round : α → EStateM ε σ PUnit}
    (h : ∀ a ∈ items, Keeps inv tolerated (fun _ => True) (round a)) :
    Keeps inv tolerated (fun _ => True) (items.forM round) := by
  induction items with
  | nil => exact pure trivial
  | cons a items ih =>
    apply bind (h a List.mem_cons_self)
    intro _ _
    exact ih fun b hb => h b (List.mem_cons_of_mem _ hb)

/-- Each answer of a loop is a good one to its item. -/
theorem mapM_forall₂ {items : List α} {round : α → EStateM ε σ β} {good : α → β → Prop}
    (h : ∀ a ∈ items, Keeps inv tolerated (good a) (round a)) :
    Keeps inv tolerated (List.Forall₂ good items) (items.mapM round) := by
  induction items with
  | nil => exact pure .nil
  | cons a items ih =>
    rw [List.mapM_cons]
    apply bind (h a List.mem_cons_self)
    intro b hb
    apply bind (ih fun c hc => h c (List.mem_cons_of_mem _ hc))
    intro bs hbs
    exact pure (.cons hb hbs)

theorem mapM {items : List α} {round : α → EStateM ε σ β} {good : α → β → Prop}
    (h : ∀ a ∈ items, Keeps inv tolerated (good a) (round a)) :
    Keeps inv tolerated (fun bs => ∀ b ∈ bs, ∃ a ∈ items, good a b) (items.mapM round) :=
  (mapM_forall₂ h).mono (fun _ hbs => exists_left_of_forall₂ hbs) fun _ he => he

end Keeps

/-- Work that keeps an invariant and comes to the result of a computation, if that has one. -/
def Follows (inv : σ → Prop) (tolerated : ε → Prop) (result : Except ε α)
    (work : EStateM ε σ α) : Prop :=
  ∀ a, result = .ok a → Keeps inv tolerated (· = a) work

namespace Follows

variable {inv : σ → Prop} {tolerated : ε → Prop} {result : Except ε α} {work : EStateM ε σ α}

theorem pure (a : α) : Follows inv tolerated (Pure.pure a) (Pure.pure a : EStateM ε σ α) := by
  intro b hb
  exact .pure (Except.ok.inj hb)

theorem throw (e : ε) :
    Follows inv tolerated (throw e : Except ε α) (throw e : EStateM ε σ α) := by
  intro b hb
  cases hb

theorem ofExcept (given : Except ε α) :
    Follows inv tolerated (MonadExcept.ofExcept given : Except ε α)
      (MonadExcept.ofExcept given : EStateM ε σ α) := by
  intro b hb
  cases given with
  | ok a => exact .pure (Except.ok.inj hb)
  | error e => cases hb

theorem bind {next : α → Except ε β} {next' : α → EStateM ε σ β}
    (hwork : Follows inv tolerated result work)
    (hnext : ∀ a, Follows inv tolerated (next a) (next' a)) :
    Follows inv tolerated (result >>= next) (work >>= next') := by
  intro b hb
  cases result with
  | error e => cases hb
  | ok a =>
    refine (hwork a rfl).bind fun a' ha => ?_
    subst ha
    exact hnext a' b hb

end Follows

/-- A computation whose answers are good, and that fails only as is tolerated. -/
def Computes (tolerated : ε → Prop) (good : α → Prop) : Except ε α → Prop
  | .ok a => good a
  | .error e => tolerated e

namespace Computes

variable {tolerated : ε → Prop} {good : α → Prop} {result : Except ε α}

theorem bind {good' : β → Prop} {next : α → Except ε β} (h : Computes tolerated good result)
    (hnext : ∀ a, good a → Computes tolerated good' (next a)) :
    Computes tolerated good' (result >>= next) := by
  cases result with
  | ok a => exact hnext a h
  | error e => exact h

theorem mono {good' : α → Prop} (h : Computes tolerated good result)
    (hgood : ∀ a, good a → good' a) : Computes tolerated good' result := by
  cases result with
  | ok a => exact hgood a h
  | error e => exact h

theorem weaken {tolerated' : ε → Prop} (h : Computes tolerated good result)
    (htolerated : ∀ e, tolerated e → tolerated' e) : Computes tolerated' good result := by
  cases result with
  | ok a => exact h
  | error e => exact htolerated e h

theorem mapM_forall₂ {items : List α} {step : α → Except ε β} {good : α → β → Prop}
    (h : ∀ a ∈ items, Computes tolerated (good a) (step a)) :
    Computes tolerated (List.Forall₂ good items) (items.mapM step) := by
  induction items with
  | nil => exact .nil
  | cons a items ih =>
    rw [List.mapM_cons]
    apply bind (h a List.mem_cons_self)
    intro b hb
    apply bind (ih fun c hc => h c (List.mem_cons_of_mem _ hc))
    intro bs hbs
    exact .cons hb hbs

theorem mapM {items : List α} {step : α → Except ε β} {good : α → β → Prop}
    (h : ∀ a ∈ items, Computes tolerated (good a) (step a)) :
    Computes tolerated (fun bs => ∀ b ∈ bs, ∃ a ∈ items, good a b) (items.mapM step) :=
  (mapM_forall₂ h).mono fun _ hbs => exists_left_of_forall₂ hbs

theorem keeps {σ : Type} {inv : σ → Prop} (h : Computes tolerated good result) :
    Keeps inv tolerated good (MonadExcept.ofExcept result : EStateM ε σ α) := by
  cases result with
  | ok a => exact .pure h
  | error e => exact .throw h

end Computes

/-- When a sequence of two steps succeeds. -/
@[simp] theorem bind_eq_ok_iff {result : Except ε α} {next : α → Except ε β} {b : β} :
    result >>= next = .ok b ↔ ∃ a, result = .ok a ∧ next a = .ok b := by
  cases result with
  | ok a => exact ⟨fun h => ⟨a, rfl, h⟩, fun ⟨_, rfl, h⟩ => h⟩
  | error e =>
    constructor
    · intro h
      cases h
    · rintro ⟨a, h, -⟩
      cases h

@[simp] theorem mapError_eq_ok_iff {ε' : Type} {result : Except ε α} {f : ε → ε'} {a : α} :
    result.mapError f = .ok a ↔ result = .ok a := by
  cases result <;> simp [Except.mapError]

theorem mapError_eq_error_iff {ε' : Type} {result : Except ε α} {f : ε → ε'} {e : ε'} :
    result.mapError f = .error e ↔ ∃ e', result = .error e' ∧ f e' = e := by
  cases result <;> simp [Except.mapError]

/-- When a sequence of a check and a step succeeds. -/
@[simp] theorem check_bind_eq_ok_iff {result : Except ε Unit} {next : Unit → Except ε β} {b : β} :
    result >>= next = .ok b ↔ result = .ok () ∧ next () = .ok b :=
  bind_eq_ok_iff.trans ⟨fun ⟨_, h⟩ => h, fun h => ⟨(), h⟩⟩

end GraphVault
