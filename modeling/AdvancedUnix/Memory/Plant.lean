import AdvancedUnix.Memory.Word

/-!
# A byte planted at several addresses

Planting goes over a list of labelled addresses. The word at an address is saved under
the label and its low byte replaced, unless that already is the byte to plant; the first
word that cannot be read ends it, and its label gets a mark instead of a word.

What is mapped stays the same throughout. So it can be said of the memory at the start
which addresses are reached, and at which one the word for a label is saved.
-/

namespace Memory

universe u

variable {ι : Type u}

/-- The words saved so far, and the memory. -/
structure Planted (ι : Type u) where
  words : ι → Word
  mem : Mem

section Steps

variable [DecidableEq ι] (b : Byte) (mark : Word)

/-- The byte `b` is planted at these addresses. -/
def plant (s : Planted ι) : List (ι × Addr) → Planted ι
  | [] => s
  | v :: vs =>
      match readWord s.mem v.2 with
      | none => { s with words := Function.update s.words v.1 mark }
      | some word =>
          if byteOf word 0 = b then plant s vs
          else plant ⟨Function.update s.words v.1 word, Function.update s.mem v.2 (some b)⟩ vs

end Steps

/-- Planting gets to the address `x`: all words before it are mapped, and its own one is. -/
def PlantsAt (m : Mem) (x : Addr) : List (ι × Addr) → Prop
  | [] => False
  | v :: vs => Mapped m v.2 ∧ (v.2 = x ∨ PlantsAt m x vs)

instance decidablePlantsAt (m : Mem) (x : Addr) :
    (vs : List (ι × Addr)) → Decidable (PlantsAt m x vs)
  | [] => inferInstanceAs (Decidable False)
  | v :: vs =>
      have := decidablePlantsAt m x vs
      inferInstanceAs (Decidable (Mapped m v.2 ∧ (v.2 = x ∨ PlantsAt m x vs)))

/-- Planting saves for `i` what it reads at `a`: it gets there, has not been at this
address before, and finds another byte, if it can read the word. -/
def SavesAt (b : Byte) (m : Mem) (i : ι) (a : Addr) : List (ι × Addr) → Prop
  | [] => False
  | v :: vs => (v = (i, a) ∧ (Mapped m a → m a ≠ some b)) ∨
      (Mapped m v.2 ∧ v.2 ≠ a ∧ SavesAt b m i a vs)

theorem low_of_readWord {m : Mem} {a : Addr} {word : Word} (read : readWord m a = some word) :
    m a = some (byteOf word 0) := by
  have low := readWord_eq_some_iff.mp read 0 (by omega)
  rwa [byteAddr_zero] at low

variable {b : Byte} {mark : Word} {m : Mem} {i : ι} {a : Addr} {vs : List (ι × Addr)}

theorem SavesAt.ne (h : SavesAt b m i a vs) (mapped : Mapped m a) : m a ≠ some b := by
  induction vs with
  | nil => exact h.elim
  | cons v vs ih =>
      rcases h with ⟨-, ne⟩ | ⟨-, -, rest⟩
      · exact ne mapped
      · exact ih rest

theorem SavesAt.mem (h : SavesAt b m i a vs) : i ∈ vs.map Prod.fst := by
  induction vs with
  | nil => exact h.elim
  | cons v vs ih =>
      rcases h with ⟨rfl, -⟩ | ⟨-, -, rest⟩
      · exact List.mem_cons_self
      · exact List.mem_cons_of_mem _ (ih rest)

theorem plantsAt_update {c x : Addr} (h : m c ≠ none) :
    PlantsAt (Function.update m c (some b)) x vs ↔ PlantsAt m x vs := by
  induction vs with
  | nil => exact Iff.rfl
  | cons v vs ih => simp only [PlantsAt, ih, mapped_update b h]

/-- Once the byte stands at an address, nothing is saved there any more. -/
theorem savesAt_update {c : Addr} (h : m c ≠ none) (mapped : Mapped m c) :
    SavesAt b (Function.update m c (some b)) i a vs ↔ a ≠ c ∧ SavesAt b m i a vs := by
  by_cases same : a = c
  · subst same
    refine iff_of_false (fun saves => ?_) fun both => both.1 rfl
    exact saves.ne ((mapped_update b h).mpr mapped) (Function.update_self _ _ _)
  · rw [and_iff_right same]
    induction vs with
    | nil => exact Iff.rfl
    | cons v vs ih => simp only [SavesAt, ih, mapped_update b h, Function.update_of_ne same]

variable [DecidableEq ι]

variable (b mark) in
/-- What planting does at one address. -/
theorem plant_cons (s : Planted ι) (v : ι × Addr) (vs : List (ι × Addr)) :
    (¬ Mapped s.mem v.2 ∧
        plant b mark s (v :: vs) = ⟨Function.update s.words v.1 mark, s.mem⟩) ∨
      (Mapped s.mem v.2 ∧ s.mem v.2 = some b ∧ plant b mark s (v :: vs) = plant b mark s vs) ∨
      ∃ word, Mapped s.mem v.2 ∧ s.mem v.2 = some (byteOf word 0) ∧ byteOf word 0 ≠ b ∧
        plant b mark s (v :: vs) = plant b mark
          ⟨Function.update s.words v.1 word, Function.update s.mem v.2 (some b)⟩ vs := by
  rw [plant]
  cases read : readWord s.mem v.2 with
  | none => exact .inl ⟨readWord_eq_none.mp read, rfl⟩
  | some word =>
      have mapped : Mapped s.mem v.2 := readWord_isSome.mp (by rw [read]; rfl)
      have low := low_of_readWord read
      by_cases there : byteOf word 0 = b
      · exact .inr (.inl ⟨mapped, there ▸ low, if_pos there⟩)
      · exact .inr (.inr ⟨word, mapped, low, there, if_neg there⟩)

/-- The byte stands at all addresses that planting gets to, and nothing else has changed. -/
theorem plant_mem (s : Planted ι) (vs : List (ι × Addr)) (x : Addr) :
    (plant b mark s vs).mem x = if PlantsAt s.mem x vs then some b else s.mem x := by
  induction vs generalizing s with
  | nil => exact (if_neg fun h => h).symm
  | cons v vs ih =>
      have gets : Mapped s.mem v.2 →
          (PlantsAt s.mem x (v :: vs) ↔ v.2 = x ∨ PlantsAt s.mem x vs) := and_iff_right
      rcases plant_cons b mark s v vs with
        ⟨unmapped, he⟩ | ⟨mapped, there, he⟩ | ⟨word, mapped, low, -, he⟩ <;> rw [he]
      · exact (if_neg fun h => unmapped h.1).symm
      · rw [ih]
        by_cases here : v.2 = x
        · subst here
          rw [if_pos ((gets mapped).mpr (.inl rfl)), there, ite_self]
        · simp only [gets mapped, here, false_or]
      · have known : s.mem v.2 ≠ none := by
          rw [low]
          exact Option.some_ne_none _
        simp only [ih, plantsAt_update known]
        by_cases here : v.2 = x
        · subst here
          rw [if_pos ((gets mapped).mpr (.inl rfl)), Function.update_self, ite_self]
        · simp only [gets mapped, here, false_or, Function.update_of_ne (Ne.symm here)]

theorem mapped_plant (s : Planted ι) (vs : List (ι × Addr)) {c : Addr} :
    Mapped (plant b mark s vs).mem c ↔ Mapped s.mem c := by
  induction vs generalizing s with
  | nil => exact Iff.rfl
  | cons v vs ih =>
      rcases plant_cons b mark s v vs with
        ⟨-, he⟩ | ⟨-, -, he⟩ | ⟨word, -, low, -, he⟩ <;> rw [he]
      · exact ih s
      · refine (ih _).trans (mapped_update b ?_)
        rw [low]
        exact Option.some_ne_none _

/-- The word of a label for which nothing is saved is kept. -/
theorem plant_words_of_not_savesAt (s : Planted ι) (h : ∀ a, ¬ SavesAt b s.mem i a vs) :
    (plant b mark s vs).words i = s.words i := by
  induction vs generalizing s with
  | nil => rfl
  | cons v vs ih =>
      rcases plant_cons b mark s v vs with
        ⟨unmapped, he⟩ | ⟨mapped, there, he⟩ | ⟨word, mapped, low, ne, he⟩ <;> rw [he]
      · have other : i ≠ v.1 := by
          rintro rfl
          exact h v.2 (.inl ⟨rfl, fun mapped => absurd mapped unmapped⟩)
        exact Function.update_of_ne other _ _
      · refine ih s fun a saves => h a (.inr ⟨mapped, ?_, saves⟩)
        rintro rfl
        exact saves.ne mapped there
      · have known : s.mem v.2 ≠ none := by
          rw [low]
          exact Option.some_ne_none _
        have other : i ≠ v.1 := by
          rintro rfl
          refine h v.2 (.inl ⟨rfl, fun _ same => ne ?_⟩)
          exact Option.some.inj (low.symm.trans same)
        rw [ih _ fun a saves => ?_]
        · exact Function.update_of_ne other _ _
        · obtain ⟨apart, saves⟩ := (savesAt_update known mapped).mp saves
          exact h a (.inr ⟨mapped, apart.symm, saves⟩)

/-- What is saved for a label is the word that was read for it, or the mark. -/
theorem plant_words_of_savesAt (s : Planted ι) (nodup : (vs.map Prod.fst).Nodup)
    (h : SavesAt b s.mem i a vs) :
    some (byteOf ((plant b mark s vs).words i) 0) =
      if Mapped s.mem a then s.mem a else some (byteOf mark 0) := by
  induction vs generalizing s with
  | nil => exact h.elim
  | cons v vs ih =>
      obtain ⟨fresh, nodup⟩ := List.nodup_cons.mp nodup
      rcases plant_cons b mark s v vs with
        ⟨unmapped, he⟩ | ⟨mapped, there, he⟩ | ⟨word, mapped, low, ne, he⟩ <;> rw [he]
      · rcases h with ⟨rfl, -⟩ | ⟨mapped, -⟩
        · rw [if_neg unmapped]
          exact congrArg (fun w : Word => some (byteOf w 0)) (Function.update_self _ _ _)
        · exact absurd mapped unmapped
      · rcases h with ⟨rfl, other⟩ | ⟨-, -, rest⟩
        · exact absurd there (other mapped)
        · exact ih s nodup rest
      · have known : s.mem v.2 ≠ none := by
          rw [low]
          exact Option.some_ne_none _
        rcases h with ⟨rfl, -⟩ | ⟨-, apart, rest⟩
        · rw [if_pos mapped, low, plant_words_of_not_savesAt _ fun c saves => fresh saves.mem]
          exact congrArg (fun w : Word => some (byteOf w 0)) (Function.update_self _ _ _)
        · rw [ih _ nodup ((savesAt_update known mapped).mpr ⟨apart.symm, rest⟩)]
          simp only [mapped_update b known, Function.update_of_ne apart.symm]

variable (b mark) in
/-- Planting at more addresses goes on behind those that it gets to. -/
theorem plant_append (s : Planted ι) {vs : List (ι × Addr)} (mapped : ∀ v ∈ vs, Mapped s.mem v.2)
    (us : List (ι × Addr)) : plant b mark s (vs ++ us) = plant b mark (plant b mark s vs) us := by
  induction vs generalizing s with
  | nil => rfl
  | cons v vs ih =>
      have here : Mapped s.mem v.2 := mapped v List.mem_cons_self
      have rest : ∀ u ∈ vs, Mapped s.mem u.2 := fun u mem => mapped u (List.mem_cons_of_mem _ mem)
      obtain ⟨word, read⟩ := Option.isSome_iff_exists.mp (readWord_isSome.mpr here)
      have low := low_of_readWord read
      have known : s.mem v.2 ≠ none := by
        rw [low]
        exact Option.some_ne_none _
      simp only [List.cons_append, plant, read]
      split
      · exact ih s rest
      · exact ih _ fun u mem => (mapped_update b known).mpr (rest u mem)

variable (b mark) in
/-- It does not get beyond a word that cannot be read. -/
theorem plant_blocked (s : Planted ι) {vs : List (ι × Addr)}
    (blocked : ¬ ∀ v ∈ vs, Mapped s.mem v.2) (us : List (ι × Addr)) :
    plant b mark s (vs ++ us) = plant b mark s vs := by
  induction vs generalizing s with
  | nil => exact absurd (fun v mem => absurd mem List.not_mem_nil) blocked
  | cons v vs ih =>
      simp only [List.cons_append, plant]
      cases read : readWord s.mem v.2 with
      | none => rfl
      | some word =>
          have here : Mapped s.mem v.2 := readWord_isSome.mp (by rw [read]; rfl)
          have known : s.mem v.2 ≠ none := by
            rw [low_of_readWord read]
            exact Option.some_ne_none _
          have rest : ¬ ∀ u ∈ vs, Mapped s.mem u.2 :=
            fun all => blocked (List.forall_mem_cons.mpr ⟨here, all⟩)
          simp only
          split
          · exact ih s rest
          · refine ih _ fun all => rest fun u mem => (mapped_update b known).mp (all u mem)

end Memory
