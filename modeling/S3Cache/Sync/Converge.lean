import S3Cache.Sync.Cluster
import S3Cache.Sync.History

/-! Replicas converge: a node's index is what the events it has heard leave, whatever order and
however often they came. -/

namespace S3Cache.Sync

open LastWriter Index Fleet KeyIndexState Utf8

namespace Cluster

variable [ETagParser] {c c' : Cluster} {n w : String} {event : IndexEvent} {j : Nat}

def heard (c : Cluster) (n w : String) : Nat :=
  if n = w then (c n).feed.log.length else (c n).received w

def Knows (c : Cluster) (n w : String) (i : Nat) (event : IndexEvent) : Prop :=
  (c w).feed.log[i]? = some event ∧ i < c.heard n w

def history (c : Cluster) (n : String) : History := fun b k =>
  {x | ∃ w i event, c.Knows n w i event ∧ event.bucket = b ∧ event.key = k ∧ event.effect = x}

structure Ok (c : Cluster) : Prop where
  me : ∀ n, (c n).feed.me = n
  described : ∀ n, ∀ event ∈ (c n).feed.log, event.op.describesNothing = false
  within : ∀ n w, c.heard n w ≤ (c w).feed.log.length
  cuts : ∀ n w q, (c n).index.nativeCuts[utf8 w]? = some ((c w).feed.epoch, q) → q ≤ c.heard n w
  holds : ∀ n, Holds (c n).index (c.history n)

structure Hears (c : Cluster) (n w : String) (j : Nat) (event : IndexEvent) (c' : Cluster) :
    Prop where
  me : ∀ m, (c' m).feed.me = (c m).feed.me
  epoch : ∀ m, (c' m).feed.epoch = (c m).feed.epoch
  described : ∀ m, ∀ event ∈ (c' m).feed.log, event.op.describesNothing = false
  within : ∀ m w, c'.heard m w ≤ (c' w).feed.log.length
  heard : ∀ v, c'.heard n v = if v = w then max (c.heard n w) (j + 1) else c.heard n v
  heard_other : ∀ m v, m ≠ n → c'.heard m v = c.heard m v
  knows : ∀ v i e, c'.Knows n v i e ↔ c.Knows n v i e ∨ (v = w ∧ i = j ∧ e = event)
  knows_other : ∀ m v i e, m ≠ n → (c'.Knows m v i e ↔ c.Knows m v i e)
  known : j < c.heard n w → (c w).feed.log[j]? = some event
  index_other : ∀ m, m ≠ n → (c' m).index = (c m).index

theorem Hears.history (h : Hears c n w j event c') :
    c'.history n = (c.history n).extend event.bucket event.key event.effect := by
  funext b k
  ext x
  simp only [Cluster.history, History.extend, h.knows, Set.mem_ofPred_eq]
  split
  · next hbk =>
    obtain ⟨rfl, rfl⟩ := hbk
    constructor
    · rintro ⟨v, i, e, hk | ⟨rfl, rfl, rfl⟩, hb, hkey, hx⟩
      · exact .inr ⟨v, i, e, hk, hb, hkey, hx⟩
      · exact .inl hx.symm
    · rintro (rfl | ⟨v, i, e, hk, hb, hkey, hx⟩)
      · exact ⟨w, j, event, .inr ⟨rfl, rfl, rfl⟩, rfl, rfl, rfl⟩
      · exact ⟨v, i, e, .inl hk, hb, hkey, hx⟩
  · next hbk =>
    constructor
    · rintro ⟨v, i, e, hk | ⟨rfl, rfl, rfl⟩, hb, hkey, hx⟩
      · exact ⟨v, i, e, hk, hb, hkey, hx⟩
      · exact absurd ⟨hb, hkey⟩ hbk
    · rintro ⟨v, i, e, hk, hb, hkey, hx⟩
      exact ⟨v, i, e, .inl hk, hb, hkey, hx⟩

theorem Hears.history_other (h : Hears c n w j event c') {m : String} (hm : m ≠ n) :
    c'.history m = c.history m := by
  funext b k
  simp only [Cluster.history, h.knows_other m _ _ _ hm]

theorem Hears.history_of_known (h : Hears c n w j event c') (hj : j < c.heard n w) :
    c'.history n = c.history n := by
  funext b k
  ext x
  simp only [Cluster.history, h.knows, Set.mem_ofPred_eq]
  constructor
  · rintro ⟨v, i, e, hk | ⟨rfl, rfl, rfl⟩, hx⟩
    · exact ⟨v, i, e, hk, hx⟩
    · exact ⟨v, i, e, ⟨h.known hj, hj⟩, hx⟩
  · rintro ⟨v, i, e, hk, hx⟩
    exact ⟨v, i, e, .inl hk, hx⟩

theorem Ok.hears (hc : Ok c) (h : Hears c n w j event c')
    (hf : Folded (c n).index ⟨utf8 w, (c w).feed.epoch, j + 1⟩ event.bucket event.key event.effect
      (c' n).index) : Ok c' where
  me m := (h.me m).trans (hc.me m)
  described := h.described
  within := h.within
  cuts m v q hq := by
    rw [h.epoch] at hq
    by_cases hm : m = n
    · subst hm
      rw [hf.cuts] at hq
      rw [h.heard]
      rcases nativeCuts_noteNativeCut hq with hq | ⟨hv, hq⟩
      · have := hc.cuts m v q hq
        split
        · next hvw =>
          subst hvw
          omega
        · exact this
      · rw [if_pos (utf8_injective hv)]
        obtain rfl : q = j + 1 := congrArg Prod.snd hq
        exact le_max_right _ _
    · rw [h.index_other m hm] at hq
      rw [h.heard_other m v hm]
      exact hc.cuts m v q hq
  holds m := by
    by_cases hm : m = n
    · subst hm
      cases ha : ((c m).index.noteNativeCut ⟨utf8 w, (c w).feed.epoch, j + 1⟩).1 with
      | true =>
        rw [h.history]
        exact hf.holds _ (hc.holds m) ha
      | false =>
        obtain ⟨q, hq, hle⟩ := covered_of_duplicate ha
        have hj : j < c.heard m w := lt_of_lt_of_le hle (hc.cuts m w q hq)
        rw [h.history_of_known hj]
        exact (hc.holds m).congr (hf.duplicate ha)
    · rw [h.history_other hm, h.index_other m hm]
      exact hc.holds m

omit [ETagParser] in
theorem heard_update_other (node : Node) {m v : String} (hm : m ≠ n) :
    heard (Function.update c n node) m v = c.heard m v := by
  simp only [heard, Function.update_of_ne hm]

theorem Ok.getElem_lt (hc : Ok c) {m v : String} {i : Nat} (hi : i < c.heard m v) :
    i < (c v).feed.log.length := lt_of_lt_of_le hi (hc.within m v)

section Publish
variable {node : Node} (hfeed : node.feed = (c n).feed.publish event)
  (hreceived : node.received = (c n).received)
include hfeed

omit [ETagParser] in
theorem log_publish : (Function.update c n node n).feed.log = (c n).feed.log ++ [event] := by
  rw [Function.update_self, hfeed, WriteFeed.publish]

omit [ETagParser] in
theorem length_log_publish (v : String) :
    (c v).feed.log.length ≤ (Function.update c n node v).feed.log.length := by
  by_cases hv : v = n
  · subst hv
    rw [log_publish hfeed, List.length_append]
    exact Nat.le_add_right ..
  · rw [Function.update_of_ne hv]

omit [ETagParser] in
theorem feed_publish (m : String) : (Function.update c n node m).feed.me = (c m).feed.me ∧
    (Function.update c n node m).feed.epoch = (c m).feed.epoch := by
  by_cases hm : m = n
  · subst hm
    rw [Function.update_self, hfeed]
    exact ⟨rfl, rfl⟩
  · rw [Function.update_of_ne hm]
    exact ⟨rfl, rfl⟩

theorem described_publish (hc : Ok c) (hd : event.op.describesNothing = false) {m : String}
    {e : IndexEvent} (he : e ∈ (Function.update c n node m).feed.log) :
    e.op.describesNothing = false := by
  by_cases hm : m = n
  · subst hm
    rw [log_publish hfeed] at he
    rcases List.mem_append.mp he with he | he
    · exact hc.described m e he
    · rw [List.mem_singleton.mp he, hd]
  · rw [Function.update_of_ne hm] at he
    exact hc.described m e he

theorem knows_publish_other (hc : Ok c) {m : String} (hm : m ≠ n) (v : String) (i : Nat)
    (e : IndexEvent) : Knows (Function.update c n node) m v i e ↔ c.Knows m v i e := by
  unfold Knows
  rw [heard_update_other node hm]
  by_cases hv : v = n
  · subst hv
    rw [log_publish hfeed]
    refine and_congr_left fun hi => ?_
    rw [List.getElem?_append_left (hc.getElem_lt hi)]
  · rw [Function.update_of_ne hv]

include hreceived

omit [ETagParser] in
theorem heard_publish (v : String) : heard (Function.update c n node) n v =
    if v = n then (c n).feed.log.length + 1 else c.heard n v := by
  by_cases hv : v = n
  · subst hv
    rw [heard, if_pos rfl, log_publish hfeed, if_pos rfl, List.length_append]
    rfl
  · rw [heard, if_neg (Ne.symm hv), Function.update_self, hreceived, if_neg hv, heard,
      if_neg (Ne.symm hv)]

theorem within_publish (hc : Ok c) (m v : String) :
    heard (Function.update c n node) m v ≤ (Function.update c n node v).feed.log.length := by
  by_cases hm : m = n
  · subst hm
    rw [heard_publish hfeed hreceived]
    split
    · next hv =>
      subst hv
      rw [log_publish hfeed, List.length_append]
      rfl
    · exact (hc.within m v).trans (length_log_publish hfeed v)
  · rw [heard_update_other node hm]
    exact (hc.within m v).trans (length_log_publish hfeed v)

omit [ETagParser] in
theorem knows_publish (v : String) (i : Nat) (e : IndexEvent) :
    Knows (Function.update c n node) n v i e ↔
      c.Knows n v i e ∨ v = n ∧ i = (c n).feed.log.length ∧ e = event := by
  unfold Knows
  rw [heard_publish hfeed hreceived]
  by_cases hv : v = n
  · subst hv
    have hself : c.heard v v = (c v).feed.log.length := if_pos rfl
    rw [log_publish hfeed, hself, if_pos rfl, List.getElem?_append]
    by_cases hi : i < (c v).feed.log.length
    · simp only [hi, if_true]
      constructor
      · exact fun h => .inl ⟨h.1, trivial⟩
      · rintro (h | ⟨-, rfl, -⟩)
        · exact ⟨h.1, by omega⟩
        · exact absurd hi (lt_irrefl _)
    · simp only [hi, if_false, and_false, false_or, true_and]
      constructor
      · rintro ⟨h, hlt⟩
        obtain rfl : i = (c v).feed.log.length := by omega
        simp only [Nat.sub_self, List.getElem?_cons_zero, Option.some.injEq] at h
        exact ⟨rfl, h.symm⟩
      · rintro ⟨rfl, rfl⟩
        exact ⟨by simp, by omega⟩
  · simp only [Function.update_of_ne hv, hv, if_false, false_and, or_false]

theorem hears_publish (hc : Ok c) (hd : event.op.describesNothing = false) :
    Hears c n n (c n).feed.log.length event (Function.update c n node) where
  me m := (feed_publish hfeed m).1
  epoch m := (feed_publish hfeed m).2
  described m e he := described_publish hfeed hc hd he
  within m v := within_publish hfeed hreceived hc m v
  heard v := by
    have hself : c.heard n n = (c n).feed.log.length := if_pos rfl
    rw [heard_publish hfeed hreceived, hself, max_eq_right (Nat.le_succ _)]
  heard_other m v hm := heard_update_other node hm
  knows v i e := knows_publish hfeed hreceived v i e
  knows_other m v i e hm := knows_publish_other hfeed hc hm v i e
  known h := absurd h (by rw [heard, if_pos rfl]; exact lt_irrefl _)
  index_other m hm := by rw [Function.update_of_ne hm]

end Publish

theorem hears_deliver {node : Node} (hc : Ok c) (hn : n ≠ w)
    (hfeed : node.feed = (c n).feed)
    (hreceived : node.received =
      Function.update (c n).received w (max ((c n).received w) (j + 1)))
    (hj : j ≤ (c n).received w) (hevent : (c w).feed.log[j]? = some event) :
    Hears c n w j event (Function.update c n node) := by
  have hfeeds : ∀ m, (Function.update c n node m).feed = (c m).feed := by
    intro m
    by_cases hm : m = n
    · subst hm
      rw [Function.update_self, hfeed]
    · rw [Function.update_of_ne hm]
  have hself : c.heard n w = (c n).received w := if_neg hn
  have hheard : ∀ v, heard (Function.update c n node) n v =
      if v = w then max (c.heard n w) (j + 1) else c.heard n v := by
    intro v
    simp only [heard, Function.update_self, hfeed, hreceived, Function.update_apply, if_neg hn]
    by_cases hv : v = w
    · subst hv
      simp [hn]
    · simp [hv]
  have hlt : j < (c w).feed.log.length := (List.getElem?_eq_some_iff.mp hevent).1
  refine
    { me := fun m => by rw [hfeeds]
      epoch := fun m => by rw [hfeeds]
      described := fun m => by rw [hfeeds]; exact hc.described m
      within := fun m v => ?_
      heard := hheard
      heard_other := fun m v hm => heard_update_other node hm
      knows := fun v i e => ?_
      knows_other := fun m v i e hm => by
        simp only [Knows, hfeeds, heard_update_other node hm]
      known := fun _ => hevent
      index_other := fun m hm => by rw [Function.update_of_ne hm] }
  · rw [hfeeds]
    by_cases hm : m = n
    · subst hm
      rw [hheard]
      split
      · next hv =>
        subst hv
        exact max_le (hc.within m v) hlt
      · exact hc.within m v
    · rw [heard_update_other node hm]
      exact hc.within m v
  · unfold Knows
    rw [hfeeds, hheard]
    by_cases hv : v = w
    · subst hv
      rw [if_pos rfl, hself]
      constructor
      · rintro ⟨he, hi⟩
        by_cases hlt : i < (c n).received v
        · exact .inl ⟨he, hlt⟩
        · obtain rfl : i = j := by omega
          exact .inr ⟨rfl, rfl, Option.some.inj (he.symm.trans hevent)⟩
      · rintro (⟨he, hi⟩ | ⟨-, rfl, rfl⟩)
        · exact ⟨he, by omega⟩
        · exact ⟨hevent, by omega⟩
    · simp only [hv, if_false, false_and, or_false]

theorem ok_start (epoch : String → Nat) : Ok (start epoch) where
  me _ := rfl
  described _ _ h := absurd h List.not_mem_nil
  within n w := by simp [heard, start, Node.start]
  cuts n w q hq := by
    have hcuts : ∀ a : Nat × Nat, (start epoch n).index.nativeCuts[utf8 w]? = some a → a.2 = 0 := by
      intro a ha
      simp only [start, Node.start] at ha
      unfold registerNativeWriter at ha
      split at ha
      · simp at ha
      · split at ha
        · simp [invalidateCapture] at ha
        · simp only [invalidateCapture, setCut, TreeMap.get_insert] at ha
          split at ha
          · cases ha
            rfl
          · simp at ha
    obtain rfl : q = 0 := hcuts _ hq
    exact Nat.zero_le _
  holds n := by
    have hb : (start epoch n).index.buckets = ∅ := buckets_registerNativeWriter _
    have hnone : ∀ b, (start epoch n).index.bucket b = {} := fun b => by
      simp [KeyIndexState.bucket, hb]
    refine ⟨fun b => ?_, fun b k => ?_⟩
    · rw [hnone]
      exact BucketState.settled_empty.toIdle
    · have hempty : (start epoch).history n b k = ∅ := by
        refine Set.eq_empty_of_forall_notMem fun x => ?_
        rintro ⟨w, i, event, ⟨-, hi⟩, -⟩
        simp [heard, start, Node.start] at hi
      rw [KeyIndexState.view, hnone, BucketState.view_empty, hempty]
      exact Settles.empty

variable [Layout] [EventCodec]

omit [ETagParser] [Layout] [EventCodec] in
theorem ownPosition_publish {feed : WriteFeed} (h : feed.me = n) :
    (feed.publish event).ownPosition = ⟨utf8 n, feed.epoch, feed.log.length + 1⟩ := by
  simp [WriteFeed.ownPosition, WriteFeed.publish, h]

theorem Ok.step (hc : Ok c) {a : Action} (hs : step c a = some c') : Ok c' := by
  cases a with
  | put node bucket key entry =>
    obtain ⟨⟨hd, hstamp⟩, heq⟩ := Option.ite_none_right_eq_some.mp hs
    cases heq
    have hd' : (putEvent bucket key entry).op.describesNothing = false :=
      not_describesNothing_putEvent hd
    have hfold : Folded (c node).index ⟨utf8 node, (c node).feed.epoch, (c node).feed.log.length + 1⟩
        bucket key (putEvent bucket key entry).effect ((c node).put bucket key entry).index := by
      rw [effect_putEvent hstamp, ← ownPosition_publish (hc.me node)]
      exact folded_put entry
    refine hc.hears (hears_publish rfl rfl hc hd') ?_
    rw [Function.update_self]
    exact hfold
  | del node bucket key ts =>
    obtain ⟨⟨hstamp, hw⟩, heq⟩ := Option.ite_none_right_eq_some.mp hs
    cases heq
    have hd' : (delEvent bucket key ts).op.describesNothing = false := rfl
    have hfold : Folded (c node).index ⟨utf8 node, (c node).feed.epoch, (c node).feed.log.length + 1⟩
        bucket key (delEvent bucket key ts).effect ((c node).del bucket key ts).index := by
      rw [effect_delEvent hstamp, ← ownPosition_publish (hc.me node)]
      exact folded_del hw
    refine hc.hears (hears_publish rfl rfl hc hd') ?_
    rw [Function.update_self]
    exact hfold
  | deliver node peer seq =>
    simp only [Sync.step, Option.ite_none_left_eq_some, not_or, not_lt] at hs
    obtain ⟨⟨hn, hseq, hnext⟩, hs⟩ := hs
    obtain ⟨event, hevent, hs⟩ := Option.bind_eq_some_iff.mp hs
    simp only [Option.ite_none_left_eq_some, not_not] at hs
    obtain ⟨hw, hs⟩ := hs
    obtain ⟨node', hreceive, hs⟩ := Option.bind_eq_some_iff.mp hs
    cases hs
    obtain ⟨_, hdecode, hreceive⟩ := Option.bind_eq_some_iff.mp hreceive
    rw [decodeEvent_encodeEvent] at hdecode
    cases hdecode
    obtain ⟨⟨fence, index⟩, happly, hnode⟩ := Option.bind_eq_some_iff.mp hreceive
    cases hnode
    obtain ⟨j, rfl⟩ := Nat.exists_eq_succ_of_ne_zero hseq
    have hfold := folded_applyFeedIndex
      (hc.described peer event (List.mem_of_getElem? hevent)) hw happly
    refine hc.hears (hears_deliver hc hn rfl rfl (by omega) hevent) ?_
    rw [Function.update_self]
    exact hfold

/-- Node `n` has received every event of every other node. -/
def CaughtUp (c : Cluster) (n : String) : Prop :=
  ∀ w, w ≠ n → (c n).received w = (c w).feed.log.length

def Published (c : Cluster) (bucket key : String) (w : String) (i : Nat) (event : IndexEvent) :
    Prop :=
  (c w).feed.log[i]? = some event ∧ event.bucket = bucket ∧ event.key = key

def PutsDistinct (c : Cluster) : Prop :=
  ∀ bucket key w i event w' i' event', c.Published bucket key w i event →
    c.Published bucket key w' i' event' → event.op ≠ .del → event'.op ≠ .del →
    event.tsUs = event'.tsUs → w = w' ∧ i = i'

omit [Layout] [EventCodec] in
theorem CaughtUp.history (h : c.CaughtUp n) (bucket key : String) :
    c.history n bucket key =
      {x | ∃ w i event, c.Published bucket key w i event ∧ event.effect = x} := by
  have hknows : ∀ w i event, c.Knows n w i event ↔ (c w).feed.log[i]? = some event := by
    intro w i event
    refine and_iff_left_of_imp fun he => ?_
    have hlt := (List.getElem?_eq_some_iff.mp he).1
    unfold heard
    split
    · next hn =>
      subst hn
      exact hlt
    · next hn =>
      rw [h w (Ne.symm hn)]
      exact hlt
  ext x
  simp only [Cluster.history, hknows, Published, Set.mem_ofPred_eq, and_assoc]

omit [Layout] [EventCodec] in
theorem effect_eq_put {e : ObjEntry} (h : event.effect = .put e) :
    event.op ≠ .del ∧ e.lastModified = fromMicros event.tsUs := by
  unfold IndexEvent.effect at h
  split at h
  · next hop =>
    cases h
    exact ⟨by simp [hop], rfl⟩
  · cases h

omit [Layout] [EventCodec] in
theorem effect_of_put (h : event.op ≠ .del) : ∃ e, event.effect = .put e := by
  unfold IndexEvent.effect
  split
  · exact ⟨_, rfl⟩
  · next hop => exact absurd hop h

omit [Layout] [EventCodec] in
theorem effect_eq_del {t : SystemTime} :
    event.effect = .del t ↔ event.op = .del ∧ fromMicros event.tsUs = t := by
  unfold IndexEvent.effect
  split
  · next hop => simp [hop]
  · next hop => simp [hop]

end Cluster

open Cluster

section
variable [Layout] [ETagParser] [EventCodec]

/-- Any two nodes that have received all events hold the same tombstones and, but for user
metadata, the same rows; and a key holds a row exactly when its latest put is strictly later
than each of its deletes. -/
theorem replicas_converge {epoch : String → Nat} {actions : List Action} {c : Cluster}
    (hrun : Machine.run step (Cluster.start epoch) actions = some c) (hputs : c.PutsDistinct)
    (a b : String) (ha : c.CaughtUp a) (hb : c.CaughtUp b) (bucket key : String) :
    ((c a).index.bucket bucket).gone.get key = ((c b).index.bucket bucket).gone.get key ∧
    (((c a).index.bucket bucket).keys.get key).map ObjEntry.advertised =
      (((c b).index.bucket bucket).keys.get key).map ObjEntry.advertised ∧
    ((((c a).index.bucket bucket).keys.get key).isSome = true ↔
      ∃ w i put, c.Published bucket key w i put ∧ put.op ≠ .del ∧
        (∀ w' i' event, c.Published bucket key w' i' event → event.op ≠ .del →
          event.tsUs ≤ put.tsUs) ∧
        ∀ w' i' event, c.Published bucket key w' i' event → event.op = .del →
          event.tsUs < put.tsUs) := by
  have hok : c.Ok := Machine.run_keeps hrun (fun _ _ _ h => h.step) (ok_start epoch)
  have hsa := (hok.holds a).settles bucket key
  have hsb := (hok.holds b).settles bucket key
  rw [ha.history] at hsa
  rw [hb.history] at hsb
  have heq := hsa.unique hsb fun v w hv hw htime => by
    obtain ⟨wv, iv, ev, hpv, hev⟩ := hv
    obtain ⟨ww, iw, ew, hpw, hew⟩ := hw
    obtain ⟨hopv, htv⟩ := effect_eq_put hev
    obtain ⟨hopw, htw⟩ := effect_eq_put hew
    rw [htv, htw] at htime
    obtain ⟨rfl, rfl⟩ :=
      hputs bucket key _ _ _ _ _ _ hpv hpw hopv hopw (fromMicros_injective htime)
    obtain rfl : ev = ew := Option.some.inj (hpv.1.symm.trans hpw.1)
    rw [hev] at hew
    cases hew
    rfl
  refine ⟨congrArg Register.gone heq, congrArg Register.value heq, ?_⟩
  have hsome : ((((c a).index.bucket bucket).keys.get key).isSome = true) ↔
      ((c a).index.view bucket key).register.value.isSome = true := by
    simp [KeyView.register, KeyIndexState.view, BucketState.view]
  rw [hsome, hsa.isSome_iff]
  constructor
  · rintro ⟨v, ⟨w, i, put, hput, heff⟩, hlatest, hdels⟩
    obtain ⟨hop, ht⟩ := effect_eq_put heff
    refine ⟨w, i, put, hput, hop, fun w' i' event he hop' => ?_, fun w' i' event he hop' => ?_⟩
    · obtain ⟨e, heff'⟩ := effect_of_put hop'
      have := hlatest e ⟨w', i', event, he, heff'⟩
      rwa [ht, (effect_eq_put heff').2, fromMicros_le] at this
    · have := hdels (fromMicros event.tsUs) ⟨w', i', event, he, effect_eq_del.mpr ⟨hop', rfl⟩⟩
      rwa [ht, fromMicros_lt] at this
  · rintro ⟨w, i, put, hput, hop, hlatest, hdels⟩
    obtain ⟨v, heff⟩ := effect_of_put hop
    obtain ⟨-, ht⟩ := effect_eq_put heff
    refine ⟨v, ⟨w, i, put, hput, heff⟩, ?_, ?_⟩
    · rintro u ⟨w', i', event, he, heff'⟩
      obtain ⟨hop', ht'⟩ := effect_eq_put heff'
      rw [ht, ht', fromMicros_le]
      exact hlatest w' i' event he hop'
    · rintro t ⟨w', i', event, he, heff'⟩
      obtain ⟨hop', rfl⟩ := effect_eq_del.mp heff'
      rw [ht, fromMicros_lt]
      exact hdels w' i' event he hop'

end

section Sample
local instance convergeLayout : Layout := sampleLayout
local instance convergeParser : ETagParser := sampleETagParser
local instance convergeCodec : EventCodec := postcardEvents

def Action.Within (nodes : List String) : Action → Prop
  | .put node _ _ _ | .del node _ _ _ => node ∈ nodes
  | .deliver node peer _ => node ∈ nodes ∧ peer ∈ nodes

instance (nodes : List String) (a : Action) : Decidable (a.Within nodes) := by
  cases a <;> unfold Action.Within <;> infer_instance

structure Cluster.Confined (epoch : String → Nat) (nodes : List String) (c : Cluster) : Prop where
  idle : ∀ n ∉ nodes, c n = Node.start n (epoch n)
  received : ∀ n, ∀ w ∉ nodes, (c n).received w = 0

theorem confined_update {epoch : String → Nat} {nodes : List String} {c : Cluster} {n : String}
    {node : Node} (h : c.Confined epoch nodes) (hn : n ∈ nodes)
    (hreceived : ∀ w ∉ nodes, node.received w = 0) :
    Confined epoch nodes (Function.update c n node) := by
  refine ⟨fun m hm => ?_, fun m w hw => ?_⟩
  · rw [Function.update_of_ne (ne_of_mem_of_not_mem hn hm).symm]
    exact h.idle m hm
  · by_cases hmn : m = n
    · rw [hmn, Function.update_self]
      exact hreceived w hw
    · rw [Function.update_of_ne hmn]
      exact h.received m w hw

theorem confined_run {epoch : String → Nat} {nodes : List String} {actions : List Action}
    {c : Cluster} (h : Machine.Runs step (fun _ a => a.Within nodes) (start epoch) actions c) :
    c.Confined epoch nodes := by
  refine h.keeps (fun c a c' hc hwithin hs => ?_) ⟨fun _ _ => rfl, fun _ _ _ => rfl⟩
  cases a with
  | put n bucket key entry =>
    obtain ⟨-, hs⟩ := Option.ite_none_right_eq_some.mp hs
    cases hs
    exact confined_update hc hwithin (hc.received n)
  | del n bucket key ts =>
    obtain ⟨-, hs⟩ := Option.ite_none_right_eq_some.mp hs
    cases hs
    exact confined_update hc hwithin (hc.received n)
  | deliver n peer seq =>
    obtain ⟨hn, hpeer⟩ := hwithin
    obtain ⟨-, hs⟩ := Option.ite_none_left_eq_some.mp hs
    obtain ⟨event, -, hs⟩ := Option.bind_eq_some_iff.mp hs
    obtain ⟨-, hs⟩ := Option.ite_none_left_eq_some.mp hs
    obtain ⟨node, hnode, hs⟩ := Option.bind_eq_some_iff.mp hs
    cases hs
    refine confined_update hc hn fun w hw => ?_
    rw [received_of_receive hnode, Function.update_of_ne (ne_of_mem_of_not_mem hpeer hw).symm]
    exact hc.received n w hw

def samplePut (us : UInt64) : ObjEntry where
  size := some 3
  lastModified := fromMicros us
  etag := some (.strong "x")
  storageClass := standardClass
  contentType := none
  objMeta := some {}

def sampleActions : List Action :=
  [.put "w" "b" "k" (samplePut 7), .put "v" "b" "k" (samplePut 9), .deliver "r" "v" 1,
   .del "w" "b" "k" (fromMicros 8), .deliver "v" "w" 1, .deliver "r" "w" 1, .deliver "v" "w" 2,
   .deliver "w" "v" 1, .deliver "r" "w" 2, .deliver "r" "w" 1]

def sampleCluster : Cluster :=
  (Machine.run (Machine.guarded step fun _ a => a.Within ["v", "w", "r"]) (start fun _ => 1)
    sampleActions).get (by decide +kernel)

theorem runs_sampleCluster : Machine.Runs step (fun _ a => a.Within ["v", "w", "r"])
    (start fun _ => 1) sampleActions sampleCluster :=
  Machine.runs_of_run_guarded (Option.some_get _).symm

theorem log_sampleCluster {n : String} (hn : n ∉ ["v", "w", "r"]) :
    (sampleCluster n).feed.log = [] := by
  rw [(confined_run runs_sampleCluster).idle n hn]
  rfl

theorem caughtUp_sampleCluster {n : String} (h : ∀ w ∈ ["v", "w", "r"], w ≠ n →
    (sampleCluster n).received w = (sampleCluster w).feed.log.length) : sampleCluster.CaughtUp n := by
  intro w hw
  by_cases hmem : w ∈ ["v", "w", "r"]
  · exact h w hmem hw
  · rw [log_sampleCluster hmem]
    exact (confined_run runs_sampleCluster).received n w hmem

theorem putsDistinct_sampleCluster : sampleCluster.PutsDistinct := by
  have hfew : ∀ w ∈ ["v", "w", "r"], ∀ w' ∈ ["v", "w", "r"],
      ∀ x ∈ (sampleCluster w).feed.log.zipIdx, ∀ y ∈ (sampleCluster w').feed.log.zipIdx,
        x.1.op ≠ .del → y.1.op ≠ .del → x.1.tsUs = y.1.tsUs → w = w' ∧ x.2 = y.2 := by
    decide +kernel
  have hmem : ∀ w i (event : IndexEvent), (sampleCluster w).feed.log[i]? = some event →
      w ∈ ["v", "w", "r"] ∧ (event, i) ∈ (sampleCluster w).feed.log.zipIdx := by
    intro w i event h
    refine ⟨not_not.mp fun hw => ?_, List.mem_zipIdx_iff_getElem?.mpr h⟩
    rw [log_sampleCluster hw] at h
    cases h
  intro _ _ w i event w' i' event' h h' hop hop' hts
  obtain ⟨hw, hx⟩ := hmem w i event h.1
  obtain ⟨hw', hy⟩ := hmem w' i' event' h'.1
  exact hfew w hw w' hw' _ hx _ hy hop hop' hts

theorem replicas_converge_sample :
    sampleCluster.PutsDistinct ∧ sampleCluster.CaughtUp "w" ∧ sampleCluster.CaughtUp "r" ∧
    ((sampleCluster "r").index.view "b" "k").row = some (samplePut 9).advertised ∧
    ((sampleCluster "r").index.view "b" "k").gone = some (fromMicros 8) ∧
    (((sampleCluster "w").index.bucket "b").keys.get "k").map ObjEntry.advertised =
      (((sampleCluster "r").index.bucket "b").keys.get "k").map ObjEntry.advertised := by
  have hw : sampleCluster.CaughtUp "w" := caughtUp_sampleCluster (by decide +kernel)
  have hr : sampleCluster.CaughtUp "r" := caughtUp_sampleCluster (by decide +kernel)
  exact ⟨putsDistinct_sampleCluster, hw, hr, by decide +kernel, by decide +kernel,
    (replicas_converge runs_sampleCluster.run putsDistinct_sampleCluster "w" "r" hw hr "b" "k").2.1⟩

end Sample

end S3Cache.Sync
