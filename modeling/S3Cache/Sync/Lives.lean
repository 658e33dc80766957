import S3Cache.Sync.Token

/-! Writers across their restarts (`sync/stop.rs`).  A life of a feed ends sealed, by a planned
stop, or without a seal, and the next one has a later epoch.  Of `groupnet`'s stream of a peer's
writes only what it promises is modelled: the items come in the order of the feed, and whatever it
passes over it reports as a gap. -/

namespace S3Cache.Sync

structure Life where
  feed : WriteFeed
  sealed : Bool := false

namespace Life

def last (l : Life) : WriteToken := ⟨l.feed.epoch, l.feed.log.length + l.sealed.toNat⟩

def Wrote (l : Life) (t : WriteToken) (event : IndexEvent) : Prop :=
  l.feed.epoch = t.epoch ∧ t.seq ≠ 0 ∧ l.feed.log[t.seq - 1]? = some event

instance (l : Life) (t : WriteToken) (event : IndexEvent) : Decidable (l.Wrote t event) :=
  inferInstanceAs (Decidable (_ ∧ _))

variable {l : Life} {t : WriteToken} {event : IndexEvent}

theorem Wrote.seq_le (h : l.Wrote t event) : t.seq ≤ l.feed.log.length := by
  have := (List.getElem?_eq_some_iff.mp h.2.2).1
  omega

theorem Wrote.le_last (h : l.Wrote t event) : t ≤ l.last :=
  WriteToken.le_iff.mpr (.inr ⟨h.1.symm, h.seq_le.trans (Nat.le_add_right _ _)⟩)

theorem Wrote.lt_seal (h : l.Wrote t event) (hs : l.sealed = true) : t < l.last := by
  refine WriteToken.lt_iff.mpr (.inr ⟨h.1.symm, ?_⟩)
  rw [last, hs]
  exact Nat.lt_succ_of_le h.seq_le

end Life

structure Writer where
  life : Life
  ended : List Life := []
  descending : (life :: ended).Pairwise fun l l' => l'.feed.epoch < l.feed.epoch

namespace Writer

def lives (w : Writer) : List Life := w.life :: w.ended

def last (w : Writer) : WriteToken := w.life.last

def Wrote (w : Writer) (t : WriteToken) (event : IndexEvent) : Prop :=
  ∃ l ∈ w.lives, l.Wrote t event

def SealedAt (w : Writer) (t : WriteToken) : Prop := ∃ l ∈ w.lives, l.sealed = true ∧ l.last = t

/-- The life of `epoch` is the one right after the life sealed at `sealed`. -/
def Renews (w : Writer) (sealed : WriteToken) (epoch : Nat) : Prop :=
  ∃ p ∈ w.lives.zip w.ended, p.2.sealed = true ∧ p.2.last = sealed ∧ p.1.feed.epoch = epoch

instance (w : Writer) (t : WriteToken) (event : IndexEvent) : Decidable (w.Wrote t event) :=
  inferInstanceAs (Decidable (∃ l ∈ w.lives, l.Wrote t event))

instance (w : Writer) (t : WriteToken) : Decidable (w.SealedAt t) :=
  inferInstanceAs (Decidable (∃ l ∈ w.lives, l.sealed = true ∧ l.last = t))

instance (w : Writer) (sealed : WriteToken) (epoch : Nat) : Decidable (w.Renews sealed epoch) :=
  inferInstanceAs (Decidable (∃ p ∈ w.lives.zip w.ended,
    p.2.sealed = true ∧ p.2.last = sealed ∧ p.1.feed.epoch = epoch))

/-- `none` is the feed's panic: a sealed life publishes nothing. -/
def publish (w : Writer) (event : IndexEvent) : Option Writer :=
  if w.life.sealed then none
  else some
    { w with
      life := { w.life with feed := w.life.feed.publish event }
      descending := List.pairwise_cons.mpr (List.pairwise_cons.mp w.descending) }

def sealFeed (w : Writer) : Option Writer :=
  if w.life.sealed then none
  else some
    { w with
      life := { w.life with sealed := true }
      descending := List.pairwise_cons.mpr (List.pairwise_cons.mp w.descending) }

def restart (w : Writer) (epoch : Nat) : Option Writer :=
  if h : w.life.feed.epoch < epoch then
    some
      { life := { feed := { me := w.life.feed.me, epoch } }
        ended := w.lives
        descending := List.pairwise_cons.mpr
          ⟨List.forall_mem_cons.mpr ⟨h, fun l hl =>
            ((List.pairwise_cons.mp w.descending).1 l hl).trans h⟩, w.descending⟩ }
  else none

variable {w w' : Writer} {t : WriteToken} {event : IndexEvent}

theorem eq_of_epoch {l l' : Life} (hl : l ∈ w.lives) (hl' : l' ∈ w.lives)
    (he : l.feed.epoch = l'.feed.epoch) : l = l' := by
  by_contra hne
  have hdistinct : w.lives.Pairwise fun l l' => l.feed.epoch ≠ l'.feed.epoch :=
    w.descending.imp fun h => h.ne'
  have : Std.Symm fun l l' : Life => l.feed.epoch ≠ l'.feed.epoch := ⟨fun _ _ h => h.symm⟩
  exact hdistinct.forall hl hl' hne he

theorem Wrote.unique {event' : IndexEvent} (h : w.Wrote t event) (h' : w.Wrote t event') :
    event = event' := by
  obtain ⟨l, hl, hw⟩ := h
  obtain ⟨l', hl', hw'⟩ := h'
  obtain rfl := eq_of_epoch hl hl' (hw.1.trans hw'.1.symm)
  exact Option.some.inj (hw.2.2.symm.trans hw'.2.2)

theorem epoch_le {l : Life} (hl : l ∈ w.lives) : l.feed.epoch ≤ w.life.feed.epoch := by
  rcases List.mem_cons.mp hl with rfl | hl
  · exact le_rfl
  · exact ((List.pairwise_cons.mp w.descending).1 l hl).le

theorem Wrote.le_last (h : w.Wrote t event) : t ≤ w.last := by
  obtain ⟨l, hl, hw⟩ := h
  rcases List.mem_cons.mp hl with rfl | hl
  · exact hw.le_last
  · exact WriteToken.le_iff.mpr (.inl (hw.1 ▸ (List.pairwise_cons.mp w.descending).1 l hl))

theorem SealedAt.silent {sealed : WriteToken} (h : w.SealedAt sealed) (hw : w.Wrote t event)
    (he : t.epoch = sealed.epoch) : t < sealed := by
  obtain ⟨l, hl, hs, rfl⟩ := h
  obtain ⟨l', hl', hw⟩ := hw
  obtain rfl := eq_of_epoch hl' hl (hw.1.trans he)
  exact hw.lt_seal hs

theorem mem_zip_tail {a : Life} {as : List Life} {p : Life × Life} (h : p ∈ (a :: as).zip as) :
    ∃ front back, a :: as = front ++ p.1 :: p.2 :: back := by
  induction as generalizing a with
  | nil => cases h
  | cons b as ih =>
    rcases List.mem_cons.mp h with rfl | h
    · exact ⟨[], as, rfl⟩
    · obtain ⟨front, back, he⟩ := ih h
      exact ⟨a :: front, back, congrArg (a :: ·) he⟩

theorem Renews.sealedAt {sealed : WriteToken} {epoch : Nat} (h : w.Renews sealed epoch) :
    w.SealedAt sealed := by
  obtain ⟨p, hp, hs, hl, -⟩ := h
  exact ⟨p.2, List.mem_cons_of_mem _ (List.of_mem_zip hp).2, hs, hl⟩

theorem Renews.epoch_lt {sealed : WriteToken} {epoch : Nat} (h : w.Renews sealed epoch) :
    sealed.epoch < epoch := by
  obtain ⟨⟨l', l⟩, hp, -, rfl, rfl⟩ := h
  obtain ⟨front, back, he⟩ := mem_zip_tail hp
  have hdesc := w.descending
  rw [he] at hdesc
  exact (List.pairwise_cons.mp (List.pairwise_append.mp hdesc).2.1).1 l List.mem_cons_self

theorem Renews.nothing_between {sealed : WriteToken} {epoch : Nat} (h : w.Renews sealed epoch)
    (hw : w.Wrote t event) (ht : t ≤ ⟨epoch, 0⟩) : t ≤ sealed := by
  have hseal := h.sealedAt
  obtain ⟨⟨l', l⟩, hp, hs, rfl, rfl⟩ := h
  obtain ⟨front, back, he⟩ := mem_zip_tail hp
  obtain ⟨m, hm, hwrote⟩ := id hw
  have hbefore : t.epoch < l'.feed.epoch := by
    rcases WriteToken.le_iff.mp ht with hlt | ⟨-, hseq⟩
    · exact hlt
    · exact absurd (Nat.le_zero.mp hseq) hwrote.2.1
  have hdesc := w.descending
  rw [he] at hdesc
  rw [lives, he] at hm
  obtain ⟨-, hrest, hfront⟩ := List.pairwise_append.mp hdesc
  obtain ⟨-, htail⟩ := List.pairwise_cons.mp hrest
  obtain ⟨hback, -⟩ := List.pairwise_cons.mp htail
  rcases List.mem_append.mp hm with hm | hm
  · have := hfront m hm l' List.mem_cons_self
    have := hwrote.1
    omega
  rcases List.mem_cons.mp hm with rfl | hm
  · exact absurd hwrote.1 (by omega)
  rcases List.mem_cons.mp hm with rfl | hm
  · exact (hseal.silent hw hwrote.1.symm).le
  · exact WriteToken.le_iff.mpr (.inl (hwrote.1 ▸ hback m hm))

structure Grows (w w' : Writer) : Prop where
  me : w'.life.feed.me = w.life.feed.me
  last : w.last ≤ w'.last
  wrote : ∀ t event, w.Wrote t event → w'.Wrote t event
  old : ∀ t event, w'.Wrote t event → t ≤ w.last → w.Wrote t event
  sealedAt : ∀ t, w.SealedAt t → w'.SealedAt t
  renews : ∀ sealed epoch, w.Renews sealed epoch → w'.Renews sealed epoch

theorem Grows.refl (w : Writer) : w.Grows w :=
  ⟨rfl, le_rfl, fun _ _ h => h, fun _ _ h _ => h, fun _ h => h, fun _ _ h => h⟩

theorem grows_update {writers : String → Writer} {node : String} (h : (writers node).Grows w)
    (p : String) : (writers p).Grows (Function.update writers node w p) := by
  by_cases hp : p = node
  · subst hp
    rwa [Function.update_self]
  · rw [Function.update_of_ne hp]
    exact .refl _

theorem grows_of_life (hended : w'.ended = w.ended) (hme : w'.life.feed.me = w.life.feed.me)
    (hepoch : w'.life.feed.epoch = w.life.feed.epoch) (hopen : w.life.sealed = false)
    (hlast : w.last ≤ w'.last)
    (hwrote : ∀ t event, w.life.Wrote t event → w'.life.Wrote t event)
    (hold : ∀ t event, w'.life.Wrote t event → t ≤ w.last → w.life.Wrote t event) :
    w.Grows w' where
  me := hme
  last := hlast
  wrote := by
    rintro t event ⟨l, hl, h⟩
    rcases List.mem_cons.mp hl with rfl | hl
    · exact ⟨_, List.mem_cons_self, hwrote t event h⟩
    · exact ⟨l, List.mem_cons_of_mem _ (hended ▸ hl), h⟩
  old := by
    rintro t event ⟨l, hl, h⟩ hle
    rcases List.mem_cons.mp hl with rfl | hl
    · exact ⟨_, List.mem_cons_self, hold t event h hle⟩
    · exact ⟨l, List.mem_cons_of_mem _ (hended ▸ hl), h⟩
  sealedAt := by
    rintro t ⟨l, hl, hs, ht⟩
    rcases List.mem_cons.mp hl with rfl | hl
    · cases hopen.symm.trans hs
    · exact ⟨l, List.mem_cons_of_mem _ (hended ▸ hl), hs, ht⟩
  renews := by
    rintro sealed epoch ⟨p, hp, hs, hl, he⟩
    unfold Renews lives at *
    rw [hended]
    cases h : w.ended with
    | nil =>
      rw [h] at hp
      cases hp
    | cons l ls =>
      rw [h, List.zip_cons_cons] at hp
      rw [List.zip_cons_cons]
      rcases List.mem_cons.mp hp with rfl | hp
      · exact ⟨_, List.mem_cons_self, hs, hl, hepoch.trans he⟩
      · exact ⟨p, List.mem_cons_of_mem _ hp, hs, hl, he⟩

theorem grows_publish (h : w.publish event = some w') :
    w.Grows w' ∧ w'.last = w.last.next ∧ w'.Wrote w'.last event ∧
      w'.life.feed = w.life.feed.publish event ∧ w'.life.sealed = false := by
  obtain ⟨hopen, h⟩ := Option.ite_none_left_eq_some.mp h
  rw [Bool.not_eq_true] at hopen
  cases h
  have hlast : w.last = ⟨w.life.feed.epoch, w.life.feed.log.length⟩ := by
    simp [last, Life.last, hopen]
  refine ⟨grows_of_life rfl rfl rfl hopen ?_ ?_ ?_, ?_, ?_, rfl, hopen⟩
  · refine WriteToken.le_iff.mpr (.inr ⟨rfl, ?_⟩)
    simp [last, Life.last, WriteFeed.publish]
  · rintro t event ⟨he, hseq, hlog⟩
    refine ⟨he, hseq, ?_⟩
    simp only [WriteFeed.publish]
    rw [List.getElem?_append_left (List.getElem?_eq_some_iff.mp hlog).1]
    exact hlog
  · rintro t event ⟨he, hseq, hlog⟩ hle
    refine ⟨he, hseq, ?_⟩
    rw [hlast] at hle
    have hlt : t.seq - 1 < w.life.feed.log.length := by
      rcases WriteToken.le_iff.mp hle with hlt | ⟨-, hs⟩
      · exact absurd he (by simp only [WriteFeed.publish] at *; omega)
      · simp only at hs
        omega
    simp only [WriteFeed.publish] at hlog
    rwa [List.getElem?_append_left hlt] at hlog
  · simp [last, Life.last, hopen, WriteFeed.publish, WriteToken.next]
  · refine ⟨_, List.mem_cons_self, rfl, ?_, ?_⟩
    · simp [last, Life.last, WriteFeed.publish]
    · simp [last, Life.last, hopen, WriteFeed.publish]

theorem grows_sealFeed (h : w.sealFeed = some w') : w.Grows w' := by
  obtain ⟨hopen, h⟩ := Option.ite_none_left_eq_some.mp h
  rw [Bool.not_eq_true] at hopen
  cases h
  refine grows_of_life rfl rfl rfl hopen ?_ (fun _ _ h => h) (fun _ _ h _ => h)
  refine WriteToken.le_iff.mpr (.inr ⟨rfl, ?_⟩)
  simp [last, Life.last, hopen]

theorem grows_restart {epoch : Nat} (h : w.restart epoch = some w') : w.Grows w' := by
  unfold restart at h
  split at h
  · next hlt =>
    cases h
    refine
      { me := rfl
        last := WriteToken.le_iff.mpr (.inl hlt)
        wrote := fun t event => ?_
        old := fun t event => ?_
        sealedAt := fun t => ?_
        renews := fun sealed epoch => ?_ }
    · rintro ⟨l, hl, h⟩
      exact ⟨l, List.mem_cons_of_mem _ hl, h⟩
    · rintro ⟨l, hl, h⟩ -
      rcases List.mem_cons.mp hl with rfl | hl
      · exact absurd h.2.2 (by simp)
      · exact ⟨l, hl, h⟩
    · rintro ⟨l, hl, h⟩
      exact ⟨l, List.mem_cons_of_mem _ hl, h⟩
    · rintro ⟨p, hp, h⟩
      exact ⟨p, List.mem_cons_of_mem _ hp, h⟩
  · cases h

theorem open_of_restart {epoch : Nat} (h : w.restart epoch = some w') : w'.life.sealed = false := by
  unfold restart at h
  split at h
  · cases h
    rfl
  · cases h

end Writer

inductive PeerWrite where
  | wrote (token : WriteToken) (event : IndexEvent)
  | sealed (token : WriteToken)
  | renewed (sealed : WriteToken) (epoch : Nat)
  | gap (missedThrough : WriteToken)

def Writer.Delivers (w : Writer) (cursor : WriteToken) : PeerWrite → Prop
  | .wrote token event => token = cursor.next ∧ w.Wrote token event
  | .sealed token => token = cursor.next ∧ w.SealedAt token
  | .renewed sealed epoch => sealed = cursor ∧ w.Renews sealed epoch
  | .gap missedThrough => missedThrough ≤ w.last

instance (w : Writer) (cursor : WriteToken) :
    (item : PeerWrite) → Decidable (w.Delivers cursor item)
  | .wrote _ _ => inferInstanceAs (Decidable (_ ∧ _))
  | .sealed _ => inferInstanceAs (Decidable (_ ∧ _))
  | .renewed _ _ => inferInstanceAs (Decidable (_ ∧ _))
  | .gap _ => inferInstanceAs (Decidable (_ ≤ _))

def PeerWrite.through (cursor : WriteToken) : PeerWrite → WriteToken
  | wrote token _ => token
  | sealed token => token
  | renewed _ epoch => ⟨epoch, 0⟩
  | gap missedThrough => max cursor missedThrough

namespace Writer

variable {w w' : Writer} {cursor : WriteToken} {item : PeerWrite}

theorem Delivers.grows (h : w.Delivers cursor item) (hw : w.Grows w') :
    w'.Delivers cursor item := by
  cases item with
  | wrote => exact ⟨h.1, hw.wrote _ _ h.2⟩
  | sealed => exact ⟨h.1, hw.sealedAt _ h.2⟩
  | renewed => exact ⟨h.1, hw.renews _ _ h.2⟩
  | gap => exact le_trans h hw.last

theorem Delivers.le_through (h : w.Delivers cursor item) : cursor ≤ item.through cursor := by
  cases item with
  | wrote => exact h.1 ▸ cursor.lt_next.le
  | sealed => exact h.1 ▸ cursor.lt_next.le
  | renewed =>
    obtain ⟨rfl, h⟩ := h
    exact WriteToken.le_iff.mpr (.inl h.epoch_lt)
  | gap => exact le_max_left _ _

theorem SealedAt.le_last {t : WriteToken} (h : w.SealedAt t) : t ≤ w.last := by
  obtain ⟨l, hl, -, rfl⟩ := h
  rcases List.mem_cons.mp hl with rfl | hl
  · exact le_rfl
  · exact WriteToken.le_iff.mpr (.inl ((List.pairwise_cons.mp w.descending).1 l hl))

theorem Delivers.through_le (h : w.Delivers cursor item) (hc : cursor ≤ w.last) :
    item.through cursor ≤ w.last := by
  cases item with
  | wrote => exact h.2.le_last
  | sealed => exact h.2.le_last
  | renewed =>
    obtain ⟨-, p, hp, -, -, rfl⟩ := h
    have hle := epoch_le (List.of_mem_zip hp).1
    refine WriteToken.le_iff.mpr ?_
    rcases hle.lt_or_eq with hlt | heq
    · exact .inl hlt
    · exact .inr ⟨heq, Nat.zero_le _⟩
  | gap => exact max_le hc h

end Writer

end S3Cache.Sync
