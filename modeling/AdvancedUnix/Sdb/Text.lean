import AdvancedUnix.Sdb.Live

/-!
# The text of the tracee

Apart from the traps of the slots in use, the text of the tracee should be the
program's own, as long as the program does not write it and stays where it is
mapped. Patching and executing keep this; the only writes that can break it
are those of a saved word, in `sdb_delete`, `sdb_disasm` and the wait loop.

A saved word is eight bytes of the text as they were at some time, traps of
other slots included. `SoundWord` says that writing it back does no harm now; it
always holds of a word that the pass of the same command has saved.
-/

namespace Sdb

open Memory Traced

variable {K : Type}

/-- So far the tracee has not written its own text, and its program has stayed
where it was mapped. -/
def Kept (H : Host K) (sdb : SDB) (p : Proc K) : Prop :=
  ∀ c ∈ p.history, (∀ a, p.image.text a → (H.next c).mem a = c.mem a) ∧
    ∀ a, sdb.runtime H (H.next c).ext a = sdb.runtime H c.ext a

/-- Byte by byte the text is the program's own or the trap of a slot in use. -/
def TextIntact (H : Host K) (sdb : SDB) (p : Proc K) : Prop :=
  ∀ a, p.image.text a → p.cpu.mem a = p.image.cpu.mem a ∨
    (p.cpu.mem a = some trapByte ∧ ∃ i, (sdb.breaks i).isUsed ∧ sdb.slotAt H p.cpu.ext i = a)

/-- Written at `a`, the word leaves each byte of the text the program's own or
the trap of a used slot among `keep`. -/
def SoundWord (H : Host K) (sdb : SDB) (keep : Slot → Prop) (p : Proc K) (a : Addr)
    (word : Word) : Prop :=
  ∀ k < 8, p.image.text (byteAddr a k) →
    some (byteOf word k) = p.image.cpu.mem (byteAddr a k) ∨
      (byteOf word k = trapByte ∧
        ∃ i, (sdb.breaks i).isUsed ∧ keep i ∧ sdb.slotAt H p.cpu.ext i = byteAddr a k)

/-- The text is intact unless the tracee has spoiled it itself. -/
def Intact (H : Host K) (sdb : SDB) (p : Proc K) : Prop := Kept H sdb p → TextIntact H sdb p

variable {H : Host K} {s t : SDB} {p : Proc K}

theorem SDB.runtime_congr (heh : t.eh = s.eh) (hpath : t.path = s.path) :
    t.runtime H = s.runtime H := by
  funext ext a
  simp only [SDB.runtime, heh, hpath]

theorem Kept.congr (heh : t.eh = s.eh) (hpath : t.path = s.path) (h : Kept H t p) :
    Kept H s p := by
  rw [Kept, ← SDB.runtime_congr heh hpath]
  exact h

theorem Kept.of_advance (h : Kept H s (p.advance H.toPlatform)) : Kept H s p :=
  fun c hc => h c (List.mem_cons_of_mem _ hc)

theorem Kept.text (h : Kept H s (p.advance H.toPlatform)) {a : Addr} (ha : p.image.text a) :
    (p.advance H.toPlatform).cpu.mem a = p.cpu.mem a :=
  (h p.cpu List.mem_cons_self).1 a ha

/-- The last instruction did not move the slots. -/
theorem Kept.slotAt (h : Kept H s (p.advance H.toPlatform)) (i : Slot) :
    s.slotAt H (p.advance H.toPlatform).cpu.ext i = s.slotAt H p.cpu.ext i :=
  (h p.cpu List.mem_cons_self).2 _

theorem Intact.load (image : Image K) : Intact H s image.load :=
  fun _ _ _ => .inl rfl

/-- Executing an instruction keeps the text. -/
theorem Intact.advance (h : Intact H s p) : Intact H s (p.advance H.toPlatform) := by
  intro kept a ha
  rw [kept.text ha]
  rcases h kept.of_advance a ha with own | ⟨trap, i, used, hi⟩
  · exact .inl own
  · exact .inr ⟨trap, i, used, (kept.slotAt i).trans hi⟩

theorem Intact.resume (h : Intact H s p) (n : Nat) : Intact H s (p.resume H.toPlatform n).1 :=
  Proc.resume_induction (motive := Intact H s) H.toPlatform n h fun _ hq => hq.advance

theorem Intact.setRegs (h : Intact H s p) (regs : UserRegs) : Intact H s (p.setRegs regs) := h

/-- More slots in use allow for more. -/
theorem Intact.grow (heh : t.eh = s.eh) (hpath : t.path = s.path)
    (grow : ∀ i, (s.breaks i).isUsed → (t.breaks i).isUsed ∧ (t.breaks i).addr = (s.breaks i).addr)
    (h : Intact H s p) : Intact H t p := by
  intro kept a ha
  rcases h (kept.congr heh hpath) a ha with own | ⟨trap, i, used, hi⟩
  · exact .inl own
  · refine .inr ⟨trap, i, (grow i used).1, ?_⟩
    rw [SDB.slotAt, SDB.runtime_congr heh hpath, (grow i used).2]
    exact hi

theorem Intact.sameTable (same : s.SameTable t) (h : Intact H s p) : Intact H t p :=
  h.grow same.eh same.path fun i used => ⟨(same.isUsed i).trans used, same.addr i⟩

/-- A trap at the address of a used slot is allowed for. -/
theorem Intact.patch (h : Intact H s p) {i : Slot} (used : (s.breaks i).isUsed) {a : Addr}
    (at_ : a = s.slotAt H p.cpu.ext i ∨
      ∃ q : Proc K, p = q.advance H.toPlatform ∧ a = s.slotAt H q.cpu.ext i) :
    Intact H s (p.setMem (Function.update p.cpu.mem a (some trapByte))) := by
  intro kept b hb
  have kept : Kept H s p := kept
  have here : s.slotAt H p.cpu.ext i = a := by
    rcases at_ with rfl | ⟨q, rfl, rfl⟩
    · rfl
    · exact kept.slotAt i
  rw [Proc.setMem_mem]
  by_cases hab : b = a
  · subst hab
    exact .inr ⟨Function.update_self _ _ _, i, used, here⟩
  · rw [Function.update_of_ne hab]
    exact h kept b hb

/-- Inside a word that is written, what the word brings counts; outside it, what
was there. -/
theorem textIntact_write {keep : Slot → Prop} {a : Addr} {word : Word} {m : Mem}
    (write : writeWord p.cpu.mem a word = some m) (sound : SoundWord H s keep p a word)
    (outside : ∀ b, p.image.text b → (∀ k < 8, b ≠ byteAddr a k) →
      p.cpu.mem b = p.image.cpu.mem b ∨ (p.cpu.mem b = some trapByte ∧
        ∃ i, (s.breaks i).isUsed ∧ keep i ∧ s.slotAt H p.cpu.ext i = b)) :
    ∀ b, p.image.text b → m b = p.image.cpu.mem b ∨ (m b = some trapByte ∧
      ∃ i, (s.breaks i).isUsed ∧ keep i ∧ s.slotAt H p.cpu.ext i = b) := by
  intro b hb
  by_cases inside : ∃ k < 8, b = byteAddr a k
  · obtain ⟨k, hk, rfl⟩ := inside
    rw [writeWord_inside write hk]
    rcases sound k hk hb with own | ⟨trap, i, hi⟩
    · exact .inl own
    · exact .inr ⟨congrArg some trap, i, hi⟩
  · simp only [not_exists, not_and] at inside
    rw [writeWord_outside write inside]
    exact outside b hb inside

/-- Writing a sound word keeps the text. -/
theorem Intact.write (h : Intact H s p) {a : Addr} {word : Word} {m : Mem}
    (write : writeWord p.cpu.mem a word = some m)
    (sound : SoundWord H s (fun _ => True) p a word) : Intact H s (p.setMem m) := by
  intro kept b hb
  have kept : Kept H s p := kept
  have outside := fun b (hb : p.image.text b) (_ : ∀ k < 8, b ≠ byteAddr a k) => h kept b hb
  simpa using textIntact_write write sound (by simpa using outside) b hb

/-- A word that is read while the text is intact is sound where it was read. -/
theorem TextIntact.soundWord (h : TextIntact H s p) {a : Addr} {word : Word}
    (read : readWord p.cpu.mem a = some word) : SoundWord H s (fun _ => True) p a word := by
  intro k hk ha
  have byte := readWord_eq_some_iff.mp read k hk
  rcases h _ ha with own | ⟨trap, i, used, hi⟩
  · exact .inl (byte.symm.trans own)
  · exact .inr ⟨Option.some.inj (byte.symm.trans trap), i, used, trivial, hi⟩

theorem SoundWord.sameTable (same : s.SameTable t) {keep : Slot → Prop} {a : Addr} {word : Word}
    (h : SoundWord H s keep p a word) : SoundWord H t keep p a word := by
  intro k hk ha
  rcases h k hk ha with own | ⟨trap, i, used, hi, hslot⟩
  · exact .inl own
  · exact .inr ⟨trap, i, (same.isUsed i).trans used, hi, (same.slotAt _ i).trans hslot⟩

section Pass

variable (env : Env K)

/-- A pass keeps the text, whatever it steps over. -/
theorem passInvariant_intact (S : Slot → Prop) :
    PassInvariant H env S (fun _ => True) (World.Holds (Intact H)) :=
  passInvariant_holds (fun _ _ _ h _ _ _ _ => h.advance)
    (fun s _ i _ _ h _ used at_ _ _ => (h.patch used at_).sameTable (s.sameTable_setWord i _))
    (fun s _ i h _ _ => h.sameTable (s.sameTable_setWord i _))

/-- The saved word of slot `i` is sound at the address of the slot. -/
def SavedSound (H : Host K) (i : Slot) (s : SDB) (p : Proc K) : Prop :=
  Kept H s p →
    SoundWord H s (fun _ => True) p (s.slotAt H p.cpu.ext i) (s.breaks i).originalWord

theorem SavedSound.advance {i : Slot} (h : SavedSound H i s p) :
    SavedSound H i s (p.advance H.toPlatform) := by
  intro kept
  rw [kept.slotAt]
  intro k hk ha
  rcases h kept.of_advance k hk ha with own | ⟨trap, j, used, keep, hj⟩
  · exact .inl own
  · exact .inr ⟨trap, j, used, keep, (kept.slotAt j).trans hj⟩

theorem SavedSound.sameTable {i : Slot} (same : s.SameTable t)
    (word : (t.breaks i).originalWord = (s.breaks i).originalWord)
    (h : SavedSound H i s p) : SavedSound H i t p := by
  intro kept
  rw [word, same.slotAt]
  exact (h (kept.congr same.eh same.path)).sameTable same

/-- A word that is sound stays so while other slots are visited. -/
theorem passInvariant_savedSound (i : Slot) :
    PassInvariant H env (· ≠ i) (fun _ => True) (World.Holds (SavedSound H i)) := by
  have other : ∀ (s : SDB) (j : Slot) (word : Word) (p : Proc K), j ≠ i → SavedSound H i s p →
      SavedSound H i (s.setWord j word) p := fun s j word p hj h =>
    h.sameTable (s.sameTable_setWord j word) (by rw [s.setWord_ne word hj.symm])
  refine passInvariant_holds (fun _ _ _ h _ _ _ _ => h.advance) ?_ ?_
  · intro s p j a word h hj _ _ _ _
    exact other s j word _ hj h
  · intro s p j h hj _
    exact other s j _ p hj h

/-- The word that a pass saves is sound when it is saved. -/
theorem savedSound_of_saves {w : World K} (h : w.Holds (Intact H)) {i : Slot}
    (saves : Saves H env i w) :
    (patchSlot H env i w).1.Holds (SavedSound H i) ∧ (patchSlot H env i w).2 = .next := by
  obtain ⟨used, a, word, ha, hpeek, hlow⟩ := saves
  have past := (passInvariant_intact env fun _ => True).stepOver h trivial used ha
    fun _ _ => trivial
  have hsdb := stepOver_sdb H env i a w
  rw [patchSlot_of_used H env used ha]
  rcases patchAt_cases H env i a w with
    ⟨word', hpeek', hlow', he⟩ | ⟨p, word', hp, hread, hlow', he⟩ | ⟨hpeek', he⟩
  · rw [hpeek] at hpeek'
    cases hpeek'
    exact absurd hlow' hlow
  · refine ⟨?_, by rw [he]⟩
    rw [he]
    intro q hq
    have hp' : ((stepOver H env i a w).setBreak i
        { (w.sdb.breaks i) with originalWord := word' }).tracee = some p := hp
    rw [World.live_setTracee hp'] at hq
    split at hq
    · rename_i running
      cases hq
      have table : ((stepOver H env i a w).setBreak i
          { (w.sdb.breaks i) with originalWord := word' }).sdb = w.sdb.setWord i word' := by
        simp only [World.setBreak, SDB.setWord, hsdb]
      have same := w.sdb.sameTable_setWord i word'
      have intact : Intact H w.sdb p := hsdb ▸ past.tracee running hp
      rw [World.setTracee_sdb, table]
      intro kept
      have keptNow : Kept H w.sdb p := Kept.congr (t := w.sdb.setWord i word') rfl rfl kept
      have here : w.sdb.slotAt H p.cpu.ext i = a := by
        rcases stepOver_slotAt H env ha hp with rfl | ⟨q, rfl, rfl⟩
        · rfl
        · exact keptNow.slotAt i
      rw [same.slotAt, SDB.setWord_self, Proc.setMem_ext, here]
      exact SoundWord.sameTable same ((intact keptNow).soundWord hread)
    · cases hq
  · rw [hpeek] at hpeek'
    cases hpeek'

/-- It is still sound when the pass is over. -/
theorem savedSound_of_patches {i : Slot} {is : List Slot} {w : World K} (nodup : is.Nodup)
    (h : w.Holds (Intact H)) (patches : Patches H env i is w) :
    (patchFrom H env is w).1.Holds (SavedSound H i) := by
  induction is generalizing w with
  | nil => exact absurd patches not_false
  | cons j is ih =>
      obtain ⟨hj, nodup⟩ := List.nodup_cons.mp nodup
      rcases patches with ⟨rfl, saves⟩ | ⟨next, rest⟩
      · obtain ⟨sound, next⟩ := savedSound_of_saves env h saves
        rw [patchFrom_cons H env next]
        refine (passInvariant_savedSound env j).patchFrom sound (fun k hk => ?_) fun _ _ => trivial
        rintro rfl
        exact hj hk
      · rw [patchFrom_cons H env next]
        exact ih nodup ((passInvariant_intact env fun _ => True).patchSlot h trivial
          fun _ _ => trivial) rest

end Pass

theorem SavedSound.resume {i : Slot} (h : SavedSound H i s p) (n : Nat) :
    SavedSound H i s (p.resume H.toPlatform n).1 :=
  Proc.resume_induction (motive := SavedSound H i s) H.toPlatform n h fun _ hq => hq.advance

end Sdb
