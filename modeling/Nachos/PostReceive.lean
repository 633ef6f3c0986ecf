import Nachos.PostDelivery

namespace Nachos
open GuardedRun Buffers

namespace PostOffice

open SynchList (Progress)

variable {numBoxes : BitVec 32 → Int} {sent : List (BitVec 32 × Sending)} {h : BitVec 32} {k : ℕ}
  {τ : Type*} {x x' : Host τ} {socket : List (ℕ × Bytes)} {t u : τ} {box : Int}
  {b' : SynchList.System (Option τ) ℕ}

section calls
variable [DecidableEq τ]

/-- What a statement of `Receive` can do. -/
inductive Receives (x : Host τ) (t : τ) : Host τ → Prop
  | inside (box : Int) (data : Bytes) (called : ℕ) (b' : SynchList.System (Option τ) ℕ) :
      x.pc t = .get box data called → SynchList.After (x.boxes box) (some t) b' →
      (b'.pc (some t)).progress = ((x.boxes box).pc (some t)).progress →
      b'.appended = (x.boxes box).appended → b'.removed = (x.boxes box).removed →
      Receives x t ((x.setBox box b').goto t (.get box data called))
  | take (box : Int) (data : Bytes) (called k : ℕ) (b' : SynchList.System (Option τ) ℕ) :
      x.pc t = .get box data called → SynchList.After (x.boxes box) (some t) b' →
      (b'.pc (some t)).progress = .removed k → b'.appended = (x.boxes box).appended →
      b'.removed = (x.boxes box).removed ++ [k] →
      Receives x t ((x.setBox box b').goto t (.get box data called))
  | back (box : Int) (data : Bytes) (called k : ℕ) (b' : SynchList.System (Option τ) ℕ) :
      x.pc t = .get box data called → SynchList.After (x.boxes box) (some t) b' →
      ((x.boxes box).pc (some t)).progress = .removed k → (b'.pc (some t)).progress = .out →
      b'.appended = (x.boxes box).appended → b'.removed = (x.boxes box).removed →
      Receives x t ((x.setBox box b').goto t (.copy box k data called))
  | copied (box : Int) (k : ℕ) (data : Bytes) (called : ℕ) :
      x.pc t = .copy box k data called → (x.mails k).mailHdr.length.toNat ≤ maxMailSize →
      Receives x t ((x.record ⟨box, called, k, (x.mails k).pktHdr, (x.mails k).mailHdr,
        (MailBox.unpack (x.mails k) data).2.2⟩).goto t .out)
  | tooLong (box : Int) (k : ℕ) (data : Bytes) (called : ℕ) :
      x.pc t = .copy box k data called → ¬(x.mails k).mailHdr.length.toNat ≤ maxMailSize →
      Receives x t { x with fault := some .receiveLength }

theorem goto_eq_self {p : Pc} (hp : x.pc t = p) : x.goto t p = x := by
  unfold Host.goto
  rw [← hp, Function.update_eq_self]

theorem ThreadAt.get {data : Bytes} {called : ℕ} {g : Progress ℕ}
    (hg : ThreadAt (.get box data called) box g) : g = .removing ∨ ∃ k, g = .removed k := by
  simpa [ThreadAt] using hg

omit [DecidableEq τ] in
theorem BoxesOk.elsewhere (hb : BoxesOk numBoxes sent h x) {c : Int}
    (hc : ∀ data called, x.pc t ≠ .get c data called) :
    ((x.boxes c).pc (some t)).progress = .out := by
  have hat := hb.thread t c
  cases hp : x.pc t with
  | out | copy box k data called =>
    rw [hp] at hat
    exact hat
  | get box data called =>
    rw [hp] at hat
    have hne : c ≠ box := fun heq => hc data called (heq ▸ hp)
    simpa [ThreadAt, hne] using hat

theorem runReceive_cases (hb : BoxesOk numBoxes sent h x) (hs : x.runReceive t = some x') :
    Receives x t x' := by
  unfold Host.runReceive at hs
  cases hp : x.pc t with
  | out =>
    rw [hp] at hs
    cases hs
  | copy box k data called =>
    simp only [hp] at hs
    split_ifs at hs with hlen
    · cases hs
      exact .copied box k data called hp hlen
    · cases hs
      exact .tooLong box k data called hp hlen
  | get box data called =>
    simp only [hp, Option.map_eq_some_iff] at hs
    obtain ⟨b', hstep, hx⟩ := hs
    have hat := hb.thread t box
    rw [hp] at hat
    have hat := hat.get
    -- A thread that takes letters out adds none.
    have hfresh : ∀ j, ((x.boxes box).pc (some t)).progress = .adding j →
        j ∉ (x.boxes box).list := by
      intro j hj
      rcases hat with heq | ⟨k, heq⟩ <;> rw [heq] at hj <;> cases hj
    obtain ⟨hafter, heffect⟩ := SynchList.run_spec (hb.lists box) hfresh hstep
    have hgoto : ((x.setBox box b').goto t (.get box data called)) = x.setBox box b' :=
      goto_eq_self hp
    cases heffect with
    | same hsame happ hrem =>
      have hitem : Host.returnedItem (x.boxes box) b' t = none := by
        unfold Host.returnedItem
        rcases hat with heq | ⟨k, heq⟩ <;> rw [hsame, heq]
      rw [hitem, ← hgoto] at hx
      exact hx ▸ .inside box data called b' hp hafter hsame happ hrem
    | append item hadding _ _ _ =>
      rcases hat with heq | ⟨k, heq⟩ <;> rw [heq] at hadding <;> cases hadding
    | remove item hremoving hremoved happ hrem =>
      have hitem : Host.returnedItem (x.boxes box) b' t = none := by
        unfold Host.returnedItem
        rw [hremoving]
      rw [hitem, ← hgoto] at hx
      exact hx ▸ .take box data called item b' hp hafter hremoved happ hrem
    | ended hend hout happ hrem =>
      rcases hat with heq | ⟨k, heq⟩
      · rw [heq] at hend
        rcases hend with hend | ⟨_, hend⟩ <;> cases hend
      · have hitem : Host.returnedItem (x.boxes box) b' t = some k := by
          unfold Host.returnedItem
          rw [heq, hout]
        rw [hitem] at hx
        exact hx ▸ .back box data called k b' hp hafter heq hout happ hrem

omit [DecidableEq τ] in
theorem BoxesOk.out_of_get (hb : BoxesOk numBoxes sent h x) {data : Bytes} {called : ℕ}
    (hp : x.pc t = .get box data called) :
    ∀ c ≠ box, ((x.boxes c).pc (some t)).progress = .out := by
  intro c hne
  refine hb.elsewhere fun data' called' hp' => hne ?_
  rw [hp] at hp'
  cases hp'
  rfl

/-- A thread does a statement of `messages->RemoveFront`. -/
theorem BoxesOk.take (hb : BoxesOk numBoxes sent h x) {p : Pc}
    (hafter : SynchList.After (x.boxes box) (some t) b')
    (happended : b'.appended = (x.boxes box).appended)
    (hself : ThreadAt p box (b'.pc (some t)).progress)
    (hothers : ∀ c ≠ box, ThreadAt p c ((x.boxes c).pc (some t)).progress) :
    BoxesOk numBoxes sent h ((x.setBox box b').goto t p) := by
  refine ⟨?_, ?_, fun u => ?_, ?_, hb.mails, hb.putting⟩
  · exact forall_setBox (P := fun _ => SynchList.Inv) hafter.inv fun b _ => hb.lists b
  · refine forall_setBox (P := fun b s => (s.pc none).progress = x.worker.progress b) ?_
      fun b _ => hb.worker b
    rw [hafter.others none (by simp)]
    exact hb.worker box
  · show ∀ b, ThreadAt (Function.update x.pc t p u) b _
    by_cases hu : u = t
    · cases hu
      rw [Function.update_self]
      exact forall_setBox (P := fun b s => ThreadAt p b (s.pc (some t)).progress) hself hothers
    · rw [Function.update_of_ne hu]
      refine forall_setBox (P := fun b s => ThreadAt (x.pc u) b (s.pc (some u)).progress) ?_
        fun b _ => hb.thread u b
      rw [hafter.others (some u) (by simpa using hu)]
      exact hb.thread u box
  · exact forall_setBox (P := fun b s => s.appended = x.delivered.filter fun k => boxOf sent k = b)
      (happended.trans (hb.appended box)) fun b _ => hb.appended b

theorem BoxesOk.receives (hb : BoxesOk numBoxes sent h x) (hr : Receives x t x') :
    BoxesOk numBoxes sent h x' := by
  cases hr with
  | inside box data called b' hp hafter hsame happ hrem =>
    refine hb.take hafter happ ?_ fun c _ => ?_
    · rw [hsame, ← hp]
      exact hb.thread t box
    · rw [← hp]
      exact hb.thread t c
  | take box data called k b' hp hafter hremoved happ hrem =>
    refine hb.take hafter happ ?_ fun c _ => ?_
    · rw [hremoved]
      simp [ThreadAt]
    · rw [← hp]
      exact hb.thread t c
  | back box data called k b' hp hafter hremoved hout happ hrem =>
    exact hb.take hafter happ hout (hb.out_of_get hp)
  | copied box k data called hp hlen =>
    refine ⟨hb.lists, hb.worker, fun u b => ?_, hb.appended, hb.mails, hb.putting⟩
    show ThreadAt (Function.update x.pc t .out u) b _
    by_cases hu : u = t
    · cases hu
      rw [Function.update_self]
      refine hb.elsewhere fun data' called' hp' => ?_
      rw [hp] at hp'
      cases hp'
    · rw [Function.update_of_ne hu]
      exact hb.thread u b
  | tooLong box k data called hp hlen =>
    exact ⟨hb.lists, hb.worker, hb.thread, hb.appended, hb.mails, hb.putting⟩

end calls

/-- Thread `t` has taken letter `k` out of the mailbox and not returned with it. -/
def Holds (x : Host τ) (t : τ) (box : Int) (k : ℕ) : Prop :=
  (∃ data called, x.pc t = .copy box k data called) ∨
    ((x.boxes box).pc (some t)).progress = .removed k

def Pc.called : Pc → ℕ
  | .out => 0
  | .get _ _ called | .copy _ _ _ called => called

/-- The first `n` calls to return have got what was sent to the mailbox before `k`. -/
def Earlier (received : List Received) (n : ℕ) (box : Int) (k : ℕ) : Prop :=
  n ≤ received.length ∧ ∀ r ∈ received.take n, r.box = box → r.k < k

theorem Earlier.append {received : List Received} {n : ℕ} (he : Earlier received n box k)
    (r : Received) : Earlier (received ++ [r]) n box k := by
  refine ⟨he.1.trans (by simp), ?_⟩
  rw [List.take_append_of_le_length he.1]
  exact he.2

structure Taken (x : Host τ) : Prop where
  removed : ∀ t box k, Holds x t box k → k ∈ (x.boxes box).removed
  fresh : ∀ t box k, Holds x t box k → k ∉ x.received.map Received.k
  unique : ∀ t u box box' k, Holds x t box k → Holds x u box' k → t = u
  returned : ∀ r ∈ x.received, r.k ∈ (x.boxes r.box).removed
  once : (x.received.map Received.k).Nodup
  called : ∀ t, (x.pc t).called ≤ x.received.length
  later : ∀ t box k, Holds x t box k → Earlier x.received (x.pc t).called box k
  inTurn : ∀ r ∈ x.received, Earlier x.received r.called r.box r.k

theorem Taken.frame (hx : Taken x)
    (hholds : ∀ t c k, Holds x' t c k → Holds x t c k ∧ (x'.pc t).called = (x.pc t).called)
    (hcalled : ∀ t, (x'.pc t).called ≤ x.received.length)
    (hremoved : ∀ c, (x'.boxes c).removed = (x.boxes c).removed)
    (hreceived : x'.received = x.received) : Taken x' where
  removed t c k hk := by
    rw [hremoved]
    exact hx.removed t c k (hholds t c k hk).1
  fresh t c k hk := by
    rw [hreceived]
    exact hx.fresh t c k (hholds t c k hk).1
  unique t u c c' k ht hu := hx.unique t u c c' k (hholds t c k ht).1 (hholds u c' k hu).1
  returned r hr := by
    rw [hreceived] at hr
    rw [hremoved]
    exact hx.returned r hr
  once := hreceived ▸ hx.once
  called t := hreceived ▸ hcalled t
  later t c k hk := by
    obtain ⟨hold, heq⟩ := hholds t c k hk
    rw [hreceived, heq]
    exact hx.later t c k hold
  inTurn := hreceived ▸ hx.inTurn

theorem Taken.congr (hx : Taken x) (hboxes : x'.boxes = x.boxes) (hpc : x'.pc = x.pc)
    (hreceived : x'.received = x.received) : Taken x' := by
  refine hx.frame (fun t c k hk => ?_) (fun t => ?_) (fun c => by rw [hboxes]) hreceived
  · unfold Holds at hk
    rw [hboxes, hpc] at hk
    exact ⟨hk, by rw [hpc]⟩
  · rw [hpc]
    exact hx.called t

theorem BoxesOk.mem_removed (hb : BoxesOk numBoxes sent h x) (hk : k ∈ (x.boxes box).removed) :
    k ∈ x.delivered ∧ boxOf sent k = box := by
  have happ : k ∈ (x.boxes box).appended := by
    rw [(hb.lists box).fifo]
    exact List.mem_append_left _ hk
  rw [hb.appended box, List.mem_filter, decide_eq_true_eq] at happ
  exact happ

theorem appended_lt (hp : Pipeline numBoxes sent socket h x) (hb : BoxesOk numBoxes sent h x)
    (box : Int) : (x.boxes box).appended.Pairwise (· < ·) := by
  have horder := (List.pairwise_append.mp hp.order).1
  rw [hp.kept, List.append_assoc] at horder
  rw [hb.appended box]
  exact (List.pairwise_append.mp horder).1.filter _

theorem taken_last (hp : Pipeline numBoxes sent socket h x) (hb : BoxesOk numBoxes sent h x)
    (hinv : SynchList.Inv b') (happ : b'.appended = (x.boxes box).appended)
    (hrem : b'.removed = (x.boxes box).removed ++ [k]) :
    (∀ j ∈ (x.boxes box).removed, j < k) ∧ ∀ c, k ∉ (x.boxes c).removed := by
  have hlist : (x.boxes box).appended = ((x.boxes box).removed ++ [k]) ++ b'.list := by
    rw [← happ, hinv.fifo, hrem]
  have hlt : ∀ j ∈ (x.boxes box).removed, j < k := by
    have horder := appended_lt hp hb box
    rw [hlist] at horder
    intro j hj
    exact (List.pairwise_append.mp (List.pairwise_append.mp horder).1).2.2 j hj k
      (List.mem_singleton_self k)
  refine ⟨hlt, fun c hc => ?_⟩
  have hbox : k ∈ (x.boxes box).appended := by
    rw [hlist]
    exact List.mem_append_left _ (List.mem_append_right _ (List.mem_singleton_self k))
  rw [hb.appended box, List.mem_filter, decide_eq_true_eq] at hbox
  have hcbox : boxOf sent k = c := (hb.mem_removed hc).2
  rw [hbox.2] at hcbox
  cases hcbox
  exact lt_irrefl k (hlt k hc)

theorem setBox_pc_other {v w : Option τ} (hafter : SynchList.After (x.boxes box) v b')
    (hw : w ≠ v) (c : Int) : ((x.setBox box b').boxes c).pc w = (x.boxes c).pc w :=
  forall_setBox (P := fun c s => s.pc w = (x.boxes c).pc w) (hafter.others w hw) (fun _ _ => rfl) c

theorem setBox_removed (hrem : b'.removed = (x.boxes box).removed) (c : Int) :
    ((x.setBox box b').boxes c).removed = (x.boxes c).removed :=
  forall_setBox (P := fun c s => s.removed = (x.boxes c).removed) hrem (fun _ _ => rfl) c

theorem Taken.worker (hx : Taken x) (hafter : SynchList.After (x.boxes box) none b')
    (hrem : b'.removed = (x.boxes box).removed) (hboxes : x'.boxes = (x.setBox box b').boxes)
    (hpc : x'.pc = x.pc) (hreceived : x'.received = x.received) : Taken x' := by
  refine hx.frame (fun t c k hk => ?_) (fun t => ?_) (fun c => ?_) hreceived
  · unfold Holds at hk
    rw [hpc, hboxes, setBox_pc_other hafter (by simp) c] at hk
    exact ⟨hk, by rw [hpc]⟩
  · rw [hpc]
    exact hx.called t
  · rw [hboxes]
    exact setBox_removed hrem c

section threads
variable [DecidableEq τ] {p : Pc} {c : Int}

theorem holds_other (hafter : SynchList.After (x.boxes box) (some t) b') (hu : u ≠ t)
    (hk : Holds ((x.setBox box b').goto t p) u c k) : Holds x u c k := by
  have hpc : ((x.setBox box b').goto t p).pc u = x.pc u := Function.update_of_ne hu _ _
  have hboxes : (((x.setBox box b').goto t p).boxes c).pc (some u) = (x.boxes c).pc (some u) :=
    setBox_pc_other hafter (by simpa using hu) c
  unfold Holds at hk
  rwa [hpc, hboxes] at hk

theorem holds_self (hout : ∀ c ≠ box, ((x.boxes c).pc (some t)).progress = .out)
    (hk : Holds ((x.setBox box b').goto t p) t c k) :
    (∃ data called, p = .copy c k data called) ∨
      (c = box ∧ (b'.pc (some t)).progress = .removed k) := by
  unfold Holds at hk
  have hpc : ((x.setBox box b').goto t p).pc t = p := Function.update_self ..
  rw [hpc] at hk
  refine hk.imp_right fun hk => ?_
  by_cases hc : c = box
  · cases hc
    have hbox : ((x.setBox box b').goto t p).boxes box = b' := Function.update_self ..
    rw [hbox] at hk
    exact ⟨rfl, hk⟩
  · have hbox : ((x.setBox box b').goto t p).boxes c = x.boxes c := Function.update_of_ne hc ..
    rw [hbox, hout c hc] at hk
    cases hk

theorem Taken.move (hx : Taken x) (hafter : SynchList.After (x.boxes box) (some t) b')
    (hrem : b'.removed = (x.boxes box).removed) (hcalled : p.called ≤ x.received.length)
    (hself : ∀ c k, Holds ((x.setBox box b').goto t p) t c k →
      Holds x t c k ∧ p.called = (x.pc t).called) :
    Taken ((x.setBox box b').goto t p) := by
  have hpc : ∀ u, u ≠ t → ((x.setBox box b').goto t p).pc u = x.pc u :=
    fun u hu => Function.update_of_ne hu _ _
  have hpt : ((x.setBox box b').goto t p).pc t = p := Function.update_self ..
  refine hx.frame (fun u c k hk => ?_) (fun u => ?_) (setBox_removed hrem) rfl
  · by_cases hu : u = t
    · cases hu
      rw [hpt]
      exact hself c k hk
    · rw [hpc u hu]
      exact ⟨holds_other hafter hu hk, rfl⟩
  · by_cases hu : u = t
    · cases hu
      rw [hpt]
      exact hcalled
    · rw [hpc u hu]
      exact hx.called u

/-- A letter is taken out that no one has had. -/
theorem Taken.take (hx : Taken x) {data : Bytes} {called : ℕ}
    (hp : x.pc t = .get box data called)
    (hout : ∀ c ≠ box, ((x.boxes c).pc (some t)).progress = .out)
    (hafter : SynchList.After (x.boxes box) (some t) b')
    (hremoved : (b'.pc (some t)).progress = .removed k)
    (hrem : b'.removed = (x.boxes box).removed ++ [k])
    (hlt : ∀ j ∈ (x.boxes box).removed, j < k) (hnew : ∀ c, k ∉ (x.boxes c).removed) :
    Taken ((x.setBox box b').goto t (.get box data called)) := by
  have hpc : ((x.setBox box b').goto t (.get box data called)).pc = x.pc := by
    show Function.update x.pc t _ = x.pc
    rw [← hp, Function.update_eq_self]
  have hgrow : ∀ c, (x.boxes c).removed ⊆
      (((x.setBox box b').goto t (.get box data called)).boxes c).removed := by
    refine forall_setBox (P := fun c s => (x.boxes c).removed ⊆ s.removed) ?_
      fun c _ => List.Subset.refl _
    rw [hrem]
    exact List.subset_append_left _ _
  -- Whoever holds a letter now has held it before, or is the thread with the new one.
  have hholds : ∀ u c j, Holds ((x.setBox box b').goto t (.get box data called)) u c j →
      (u ≠ t ∧ Holds x u c j) ∨ (u = t ∧ c = box ∧ j = k) := by
    intro u c j hj
    by_cases hu : u = t
    · cases hu
      rcases holds_self hout hj with ⟨_, _, hcopy⟩ | ⟨hc, hprogress⟩
      · cases hcopy
      · rw [hremoved] at hprogress
        cases hprogress
        exact .inr ⟨rfl, hc, rfl⟩
    · exact .inl ⟨hu, holds_other hafter hu hj⟩
  have hunseen : k ∉ x.received.map Received.k := by
    intro hk
    obtain ⟨r, hr, hrk⟩ := List.mem_map.mp hk
    exact hnew r.box (hrk ▸ hx.returned r hr)
  refine ⟨fun u c j hj => ?_, fun u c j hj => ?_, fun u v c c' j hu hv => ?_,
    fun r hr => hgrow r.box (hx.returned r hr), hx.once, fun u => ?_, fun u c j hj => ?_,
    hx.inTurn⟩
  · rcases hholds u c j hj with ⟨-, hold⟩ | ⟨-, rfl, rfl⟩
    · exact hgrow c (hx.removed u c j hold)
    · have hbox : ((x.setBox c b').goto t (.get c data called)).boxes c = b' :=
        Function.update_self ..
      rw [hbox, hrem]
      exact List.mem_append_right _ (List.mem_singleton_self j)
  · rcases hholds u c j hj with ⟨-, hold⟩ | ⟨-, -, rfl⟩
    · exact hx.fresh u c j hold
    · exact hunseen
  · rcases hholds u c j hu with ⟨-, hold⟩ | ⟨rfl, -, rfl⟩
    · rcases hholds v c' j hv with ⟨-, hold'⟩ | ⟨-, -, rfl⟩
      · exact hx.unique u v c c' j hold hold'
      · exact absurd (hx.removed u c j hold) (hnew c)
    · rcases hholds v c' j hv with ⟨-, hold'⟩ | ⟨rfl, -, -⟩
      · exact absurd (hx.removed v c' j hold') (hnew c')
      · rfl
  · rw [hpc]
    exact hx.called u
  · rw [hpc]
    rcases hholds u c j hj with ⟨-, hold⟩ | ⟨rfl, rfl, rfl⟩
    · exact hx.later u c j hold
    · refine ⟨hx.called u, fun r hr hbox => hlt r.k ?_⟩
      rw [← hbox]
      exact hx.returned r (List.mem_of_mem_take hr)

/-- The call returns with the letter it holds. -/
theorem Taken.record (hx : Taken x) {r : Received} (hself : Holds x t r.box r.k)
    (hcalled : r.called = (x.pc t).called)
    (hout : ∀ c, ((x.boxes c).pc (some t)).progress = .out) :
    Taken ((x.record r).goto t .out) := by
  have hpc : ∀ u, u ≠ t → ((x.record r).goto t .out).pc u = x.pc u :=
    fun u hu => Function.update_of_ne hu _ _
  have hpt : ((x.record r).goto t .out).pc t = .out := Function.update_self ..
  -- the letters that are still held are those of the other threads
  have hholds : ∀ u c j, Holds ((x.record r).goto t .out) u c j → u ≠ t ∧ Holds x u c j := by
    intro u c j hj
    by_cases hu : u = t
    · cases hu
      unfold Holds at hj
      rw [hpt] at hj
      rcases hj with ⟨_, _, hcopy⟩ | hprogress
      · cases hcopy
      · exact absurd ((hout c).symm.trans hprogress) (by simp)
    · unfold Holds at hj
      rw [hpc u hu] at hj
      exact ⟨hu, hj⟩
  refine ⟨fun u c j hj => hx.removed u c j (hholds u c j hj).2, fun u c j hj => ?_,
    fun u v c c' j hu hv => hx.unique u v c c' j (hholds u c j hu).2 (hholds v c' j hv).2,
    fun q hq => ?_, ?_, fun u => ?_, fun u c j hj => ?_, fun q hq => ?_⟩
  · obtain ⟨hu, hold⟩ := hholds u c j hj
    show j ∉ (x.received ++ [r]).map Received.k
    rw [List.map_append, List.mem_append, not_or]
    refine ⟨hx.fresh u c j hold, fun hjr => hu ?_⟩
    cases List.mem_singleton.mp hjr
    exact hx.unique u t c r.box r.k hold hself
  · rcases List.mem_append.mp hq with hq | hq
    · exact hx.returned q hq
    · cases List.mem_singleton.mp hq
      exact hx.removed t r.box r.k hself
  · show ((x.received ++ [r]).map Received.k).Nodup
    rw [List.map_append, List.nodup_append]
    refine ⟨hx.once, List.nodup_singleton _, fun j hj j' hj' heq => ?_⟩
    cases List.mem_singleton.mp hj'
    exact hx.fresh t r.box r.k hself (heq ▸ hj)
  · show _ ≤ (x.received ++ [r]).length
    rw [List.length_append]
    by_cases hu : u = t
    · cases hu
      rw [hpt]
      exact Nat.zero_le _
    · rw [hpc u hu]
      exact (hx.called u).trans (Nat.le_add_right _ _)
  · obtain ⟨hu, hold⟩ := hholds u c j hj
    rw [hpc u hu]
    exact (hx.later u c j hold).append r
  · rcases List.mem_append.mp hq with hq | hq
    · exact (hx.inTurn q hq).append r
    · cases List.mem_singleton.mp hq
      rw [hcalled]
      exact (hx.later t r.box r.k hself).append r

theorem Taken.receives (hx : Taken x) (hp : Pipeline numBoxes sent socket h x)
    (hb : BoxesOk numBoxes sent h x) (hr : Receives x t x') : Taken x' := by
  cases hr with
  | inside box data called b' hpc hafter hsame happ hrem =>
    have hcalled : (Pc.get box data called).called = (x.pc t).called := by rw [hpc]
    refine hx.move hafter hrem (hcalled ▸ hx.called t) fun c k hk => ⟨?_, hcalled⟩
    rcases holds_self (hb.out_of_get hpc) hk with ⟨_, _, hcopy⟩ | ⟨rfl, hremoved⟩
    · cases hcopy
    · exact .inr (hsame ▸ hremoved)
  | take box data called k b' hpc hafter hremoved happ hrem =>
    obtain ⟨hlt, hnew⟩ := taken_last hp hb hafter.inv happ hrem
    exact hx.take hpc (hb.out_of_get hpc) hafter hremoved hrem hlt hnew
  | back box data called k b' hpc hafter hremoved hout happ hrem =>
    have hcalled : (Pc.copy box k data called).called = (x.pc t).called := by
      rw [hpc]
      rfl
    refine hx.move hafter hrem (hcalled ▸ hx.called t) fun c j hj => ⟨?_, hcalled⟩
    rcases holds_self (hb.out_of_get hpc) hj with ⟨_, _, hcopy⟩ | ⟨-, hne⟩
    · cases hcopy
      exact .inr hremoved
    · rw [hout] at hne
      cases hne
  | copied box k data called hpc hlen =>
    refine hx.record (.inl ⟨data, called, hpc⟩) ?_ fun c => hb.elsewhere fun data' called' hp' => ?_
    · rw [hpc]
      rfl
    · rw [hpc] at hp'
      cases hp'
  | tooLong box k data called hpc hlen =>
    exact hx.congr rfl rfl rfl

end threads

/-- The driver of a machine whose threads send only messages that fit and have a mailbox. -/
structure OutputOk (numBoxes : BitVec 32 → Int) (h : BitVec 32)
    (o : Driver.System τ NetworkRequest NetworkOutput Unit MailFault) : Prop where
  inv : Driver.Inv (PostOfficeOutput.meaning h) [] o
  running : o.fault = none
  requests : ∀ t, ∀ r ∈ (o.pc t).asked,
    Legal numBoxes r.sending ∧ (PostOfficeOutput.driver h).prepare r.sending = .ok r

structure HostOk (numBoxes : BitVec 32 → Int) (sent : List (BitVec 32 × Sending))
    (socket : List (ℕ × Bytes)) (h : BitVec 32) (x : Host τ) : Prop where
  running : x.aborted = false
  fault : ∀ e, x.fault = some e → e = .receiveBox
  output : OutputOk numBoxes h x.output
  line : Pipeline numBoxes sent socket h x
  boxes : BoxesOk numBoxes sent h x
  taken : Taken x
  messages : ∀ r ∈ x.received, MessageAt numBoxes sent h r.k r.box r.pktHdr r.mailHdr r.data

theorem HostOk.append (hx : HostOk numBoxes sent socket h x)
    (more : List (BitVec 32 × Sending)) : HostOk numBoxes (sent ++ more) socket h x where
  running := hx.running
  fault := hx.fault
  output := hx.output
  line := hx.line.append more
  boxes := hx.boxes.append more
  taken := hx.taken
  messages r hr := (hx.messages r hr).append more

theorem HostOk.poll (hx : HostOk numBoxes sent socket h x) (ready : Bool) :
    HostOk numBoxes sent (x.poll h socket ready).2 h (x.poll h socket ready).1 := by
  obtain ⟨hline, hfault⟩ := hx.line.poll ready
  obtain ⟨input, messageAvailable, held, accepted, fault, heq⟩ := poll_eq x h socket ready
  rw [heq] at hline hfault ⊢
  cases hfault
  exact ⟨hx.running, hx.fault, hx.output, hline,
    ⟨hx.boxes.lists, hx.boxes.worker, hx.boxes.thread, hx.boxes.appended, hx.boxes.mails,
      hx.boxes.putting⟩,
    hx.taken.congr rfl rfl rfl, hx.messages⟩

section steps
variable [DecidableEq τ]

theorem HostOk.worker (hx : HostOk numBoxes sent socket h x) {fresh : Bytes}
    (hs : x.runWorker (numBoxes h) fresh = some x') : HostOk numBoxes sent socket h x' := by
  unfold Host.runWorker at hs
  cases hw : x.worker with
  | wait =>
    simp only [hw, Option.ite_none_left_eq_some, Option.some.injEq] at hs
    obtain ⟨-, rfl⟩ := hs
    obtain ⟨hline, hboxes⟩ := wait_ok hx.line hx.boxes hw rfl rfl
    exact ⟨hx.running, hx.fault, hx.output, hline, hboxes,
      hx.taken.congr rfl rfl rfl, hx.messages⟩
  | receive =>
    simp only [hw, Option.some.injEq] at hs
    cases hs
    obtain ⟨hline, hboxes⟩ := receive_ok hx.line hx.boxes hw
    exact ⟨hx.running, hx.fault, hx.output, hline, hboxes,
      hx.taken.congr rfl rfl rfl, hx.messages⟩
  | sort k hdr =>
    obtain ⟨mail, hmail, hmsg⟩ := (hx.line.sorting k hdr hw).sort fresh
    simp only [hw, hmail, Option.map_eq_some_iff] at hs
    obtain ⟨b', hstep, rfl⟩ := hs
    -- the letter in hand has not been delivered, so it is new to its mailbox
    have hhand : k ∈ x.worker.inHand := by
      rw [hw]
      exact List.mem_singleton_self k
    obtain ⟨hboxes, hafter, hrem⟩ :=
      hx.boxes.sort hw (hx.line.not_delivered hhand) hmsg hstep
    refine ⟨setBox_running hx.running hafter.inv, hx.fault, hx.output,
      hx.line.frame rfl ?_ ?_ (fun _ _ he => by cases he), hboxes,
      hx.taken.worker hafter hrem rfl rfl rfl, hx.messages⟩
    · rw [hw]
      rfl
    · rw [hw]
      rfl
  | put k box done =>
    simp only [hw, Option.map_eq_some_iff] at hs
    obtain ⟨b', hstep, rfl⟩ := hs
    obtain ⟨hline, hboxes, hafter, hrem⟩ := put_ok hx.line hx.boxes hw hstep
    exact ⟨setBox_running hx.running hafter.inv, hx.fault, hx.output, hline, hboxes,
      hx.taken.worker hafter hrem rfl rfl rfl, hx.messages⟩

theorem HostOk.call (hx : HostOk numBoxes sent socket h x) {data : Bytes}
    (hs : x.callReceive (numBoxes h) t box data = some x') :
    HostOk numBoxes sent socket h x' := by
  unfold Host.callReceive at hs
  rw [Option.ite_none_right_eq_some] at hs
  obtain ⟨hout, hs⟩ := hs
  have hpc : x.pc t = .out := by
    unfold Host.isOut at hout
    cases hp : x.pc t with
    | out => rfl
    | get _ _ _ | copy _ _ _ _ =>
      rw [hp] at hout
      cases hout
  have hnone : ∀ c, ((x.boxes c).pc (some t)).progress = .out := by
    refine fun c => hx.boxes.elsewhere fun data' called' hp' => ?_
    rw [hpc] at hp'
    cases hp'
  -- the `ASSERT` on the number of the mailbox
  by_cases hbox : ¬(box ≥ 0 ∧ box < numBoxes h)
  · rw [if_pos hbox] at hs
    cases hs
    exact ⟨hx.running, fun e he => by cases he; rfl, hx.output, hx.line.frame rfl rfl rfl
      (fun _ _ he => ⟨he, rfl⟩), ⟨hx.boxes.lists, hx.boxes.worker, hx.boxes.thread,
      hx.boxes.appended, hx.boxes.mails, hx.boxes.putting⟩,
      hx.taken.congr rfl rfl rfl, hx.messages⟩
  · rw [if_neg hbox, Option.map_eq_some_iff] at hs
    obtain ⟨b', hstep, rfl⟩ := hs
    obtain ⟨hafter, hremoving, happ, hrem⟩ := SynchList.removeFront_spec (hx.boxes.lists box) hstep
    refine ⟨setBox_running hx.running hafter.inv, hx.fault, hx.output,
      hx.line.frame rfl rfl rfl fun _ _ he => ⟨he, rfl⟩, ?_, ?_, hx.messages⟩
    · refine hx.boxes.take hafter happ (by simp [ThreadAt, hremoving]) fun c hne => ?_
      simpa [ThreadAt, hne] using hnone c
    · refine hx.taken.move hafter hrem le_rfl fun c k hk => ?_
      rcases holds_self (fun c _ => hnone c) hk with ⟨_, _, hcopy⟩ | ⟨-, hremoved⟩
      · cases hcopy
      · rw [hremoving] at hremoved
        cases hremoved

omit [DecidableEq τ] in
theorem HostOk.held (hx : HostOk numBoxes sent socket h x) (hk : Holds x t box k) :
    MessageAt numBoxes sent h k box (x.mails k).pktHdr (x.mails k).mailHdr (x.mails k).data := by
  obtain ⟨hdel, hbox⟩ := hx.boxes.mem_removed (hx.taken.removed t box k hk)
  have hmail := hx.boxes.mails k hdel
  unfold MailAt at hmail
  rwa [hbox] at hmail

omit [DecidableEq τ] in
theorem MessageAt.unpack {mail : Mail}
    (hm : MessageAt numBoxes sent h k box mail.pktHdr mail.mailHdr mail.data) (data : Bytes) :
    MessageAt numBoxes sent h k box mail.pktHdr mail.mailHdr (MailBox.unpack mail data).2.2 := by
  obtain ⟨src, a, hs, hbox, hsrc, hhdr, hdata⟩ := hm
  refine ⟨src, a, hs, hbox, hsrc, hhdr, fun i hi => ?_⟩
  rw [← hdata i hi]
  exact bcopy_start (hhdr ▸ hi)

theorem HostOk.run (hx : HostOk numBoxes sent socket h x) (hs : x.runReceive t = some x') :
    HostOk numBoxes sent socket h x' := by
  have hr := runReceive_cases hx.boxes hs
  have hboxes := hx.boxes.receives hr
  have htaken := hx.taken.receives hx.line hx.boxes hr
  cases hr with
  | inside box data called b' hpc hafter _ _ _
  | take box data called k b' hpc hafter _ _ _
  | back box data called k b' hpc hafter _ _ _ _ =>
    exact ⟨setBox_running hx.running hafter.inv, hx.fault, hx.output,
      hx.line.frame rfl rfl rfl fun _ _ he => ⟨he, rfl⟩, hboxes, htaken, hx.messages⟩
  | copied box k data called hpc hlen =>
    refine ⟨hx.running, hx.fault, hx.output,
      hx.line.frame rfl rfl rfl fun _ _ he => ⟨he, rfl⟩, hboxes, htaken, fun r hr => ?_⟩
    rcases List.mem_append.mp hr with hr | hr
    · exact hx.messages r hr
    · cases List.mem_singleton.mp hr
      exact (hx.held (.inl ⟨data, called, hpc⟩)).unpack data
  | tooLong box k data called hpc hlen =>
    obtain ⟨src, a, hsent, -, -, hhdr, -⟩ := hx.held (.inl ⟨data, called, hpc⟩)
    exact absurd (hhdr ▸ hsent.legal.1) hlen

end steps

/-- A message as it has gone to the network. -/
structure Wired (numBoxes : BitVec 32 → Int) (h : BitVec 32) (m : Transmission) : Prop where
  legal : Legal numBoxes m.sending
  packet : ∀ packet, m.packet = some packet →
    HoldsPacket (sealed h m.sending.pktHdr m.sending.mailHdr) m.sending.mailHdr m.sending.data
      packet

theorem prepare_legal {a : Sending} (ha : Legal numBoxes a) :
    ∃ r, (PostOfficeOutput.driver h).prepare a = .ok r := by
  have hpack : ∃ r, PostOfficeOutput.pack h a.pktHdr a.mailHdr a.data a.buffer = .ok r := by
    unfold PostOfficeOutput.pack
    rw [if_neg (not_not.mpr ha.1), if_neg (not_not.mpr ha.2.1)]
    exact ⟨_, rfl⟩
  obtain ⟨r, hr⟩ := hpack
  refine ⟨⟨a, r.1, r.2⟩, ?_⟩
  show (PostOfficeOutput.pack h a.pktHdr a.mailHdr a.data a.buffer).map _ = _
  rw [hr]
  rfl

theorem send_error {n : NetworkOutput} {r : NetworkRequest} {e : MailFault}
    (he : n.send h r = .error e) : e = .networkSend := by
  unfold NetworkOutput.send NetworkOutput.wire at he
  split_ifs at he <;> cases he
  rfl

theorem wired_of_send {n n' : NetworkOutput} {r : NetworkRequest} {w : Unit}
    (hr : Legal numBoxes r.sending ∧ (PostOfficeOutput.driver h).prepare r.sending = .ok r)
    (hs : n.send h r = .ok (n', w)) : ∃ m, Wired numBoxes h m ∧ n'.sent = n.sent ++ [m] := by
  obtain ⟨packet, hwire, rfl⟩ := PostOfficeOutput.send_cases hs
  obtain ⟨hlen, -, hhdr, hletter⟩ := pack_cases (PostOfficeOutput.prepare_cases hr.2).2
  have hhdr : r.hdr = sealed h r.sending.pktHdr r.sending.mailHdr := hhdr
  refine ⟨⟨r.sending, packet⟩, ⟨hr.1, fun p hp => ?_⟩, rfl⟩
  rw [hhdr] at hwire
  exact (wire_cases hwire).2 p hp hletter (sealed_length hlen)

section steps
variable [DecidableEq τ]

theorem OutputOk.step {o o' : Driver.System τ NetworkRequest NetworkOutput Unit MailFault}
    (ho : OutputOk numBoxes h o) {a : Driver.Act τ Sending}
    (hlegal : ∀ t m, a = .call t m → Legal numBoxes m)
    (hs : Driver.step (PostOfficeOutput.driver h) o a = some o') :
    OutputOk numBoxes h o' ∧ (o'.device.sent = o.device.sent ∨
      ∃ m, Wired numBoxes h m ∧ o'.device.sent = o.device.sent ++ [m]) := by
  have hinv := Driver.inv_step ho.inv hs
  have hmoves := Driver.step_moves hs
  have hrequests := hmoves.asked
    (P := fun r => Legal numBoxes r.sending ∧ (PostOfficeOutput.driver h).prepare r.sending = .ok r)
    (fun t m r ha hr => by
      have hsending : r.sending = m := (PostOfficeOutput.prepare_cases hr).1
      rw [hsending]
      exact ⟨hlegal t m ha, hr⟩) ho.requests
  cases hmoves with
  | refuse t m e hp he =>
    obtain ⟨r, hr⟩ := prepare_legal (h := h) (hlegal t m rfl)
    rw [hr] at he
    cases he
  | fail t i r e hp he => exact absurd (send_error he) (hinv.fault e rfl)
  | ask t i r d w hp hask =>
    refine ⟨⟨hinv, ho.running, hrequests⟩, .inr ?_⟩
    exact wired_of_send (ho.requests t r (by rw [hp]; rfl)) hask
  | fire i hi => exact ⟨⟨hinv, ho.running, hrequests⟩, .inl rfl⟩
  | call | acquiring | enter | sleep | wake | releasing | leave =>
    exact ⟨⟨hinv, ho.running, hrequests⟩, .inl rfl⟩

theorem HostOk.output_step (hx : HostOk numBoxes sent socket h x) {a : Driver.Act τ Sending}
    (hlegal : ∀ t m, a = .call t m → Legal numBoxes m) (hs : x.runOutput h a = some x') :
    HostOk numBoxes sent socket h x' ∧
      (newlySent x x' = [] ∨ ∃ m, Wired numBoxes h m ∧ newlySent x x' = [m]) := by
  unfold Host.runOutput at hs
  simp only [Option.ite_none_right_eq_some, Option.map_eq_some_iff] at hs
  obtain ⟨-, o, ho, rfl⟩ := hs
  obtain ⟨hok, hsent⟩ := hx.output.step hlegal ho
  refine ⟨⟨hx.running, hx.fault, hok, hx.line.frame rfl rfl rfl fun _ _ he => ⟨he, rfl⟩,
    ⟨hx.boxes.lists, hx.boxes.worker, hx.boxes.thread, hx.boxes.appended, hx.boxes.mails,
      hx.boxes.putting⟩, hx.taken.congr rfl rfl rfl, hx.messages⟩, ?_⟩
  unfold newlySent
  rcases hsent with hsame | ⟨m, hm, hnew⟩
  · refine .inl ?_
    show o.device.sent.drop _ = []
    rw [hsame, List.drop_length]
  · refine .inr ⟨m, hm, ?_⟩
    show o.device.sent.drop _ = [m]
    rw [hnew, List.drop_left]

def SystemOk (numBoxes : BitVec 32 → Int) (s : System τ) : Prop :=
  ∀ h, HostOk numBoxes s.sent (s.socket h) h (s.host h)

variable {s s' : System τ}

omit [DecidableEq τ] in
theorem SystemOk.setHost (hs : SystemOk numBoxes s)
    (hx : HostOk numBoxes s.sent (s.socket h) h x) : SystemOk numBoxes (s.setHost h x) :=
  (Function.forall_update_iff s.host fun g y => HostOk numBoxes s.sent (s.socket g) g y).mpr
    ⟨hx, fun g _ => hs g⟩

omit [DecidableEq τ] in
theorem SystemOk.setSocket (hs : SystemOk numBoxes s)
    (hx : HostOk numBoxes s.sent socket h (s.host h)) : SystemOk numBoxes (s.setSocket h socket) :=
  (Function.forall_update_iff s.socket fun g l => HostOk numBoxes s.sent l g (s.host g)).mpr
    ⟨hx, fun g _ => hs g⟩

omit [DecidableEq τ] in
theorem SystemOk.transmit (hs : SystemOk numBoxes s) {m : Transmission}
    (hm : Wired numBoxes h m) : SystemOk numBoxes (s.transmit h m) := by
  have hmore : SystemOk numBoxes { s with sent := s.sent ++ [(h, m.sending)] } :=
    fun g => (hs g).append _
  unfold System.transmit
  cases hp : m.packet with
  | none => exact hmore
  | some packet =>
    have hdest := hmore m.sending.pktHdr.dest
    refine SystemOk.setSocket (s := { s with sent := s.sent ++ [(h, m.sending)] }) hmore ?_
    have hsent : IsSent numBoxes (s.sent ++ [(h, m.sending)]) m.sending.pktHdr.dest s.sent.length h
        m.sending := ⟨by simp, rfl, hm.legal⟩
    exact ⟨hdest.running, hdest.fault, hdest.output,
      hdest.line.send ⟨h, m.sending, hsent, hm.packet packet hp⟩
        (accepted_lt (hs _).line (hs _).boxes),
      hdest.boxes, hdest.taken, hdest.messages⟩

theorem systemOk_step {a : Act τ} (hs : SystemOk numBoxes s) (hok : Allowed numBoxes s a)
    (hstep : step numBoxes s a = some s') : SystemOk numBoxes s' := by
  unfold step at hstep
  rw [Option.ite_none_left_eq_some] at hstep
  replace hstep := hstep.2
  cases a with
  | output h a =>
    simp only [Option.map_eq_some_iff] at hstep
    obtain ⟨x', hrun, rfl⟩ := hstep
    have hlegal : ∀ t m, a = .call t m → Legal numBoxes m := by
      intro t m ha
      rw [ha] at hok
      exact hok
    -- a step of the driver puts at most one packet on the network
    obtain ⟨hx, hnone | ⟨m, hm, hone⟩⟩ := (hs h).output_step hlegal hrun
    · show SystemOk numBoxes ((newlySent (s.host h) x').foldl (System.transmit h) (s.setHost h x'))
      rw [hnone]
      exact hs.setHost hx
    · show SystemOk numBoxes ((newlySent (s.host h) x').foldl (System.transmit h) (s.setHost h x'))
      rw [hone]
      exact (hs.setHost hx).transmit hm
  | poll h ready =>
    cases hstep
    have hx := (hs h).poll ready
    intro g
    by_cases hg : g = h
    · cases hg
      show HostOk numBoxes s.sent (Function.update s.socket h _ h) h (Function.update s.host h _ h)
      rw [Function.update_self, Function.update_self]
      exact hx
    · show HostOk numBoxes s.sent (Function.update s.socket h _ g) g (Function.update s.host h _ g)
      rw [Function.update_of_ne hg, Function.update_of_ne hg]
      exact hs g
  | worker h fresh =>
    simp only [Option.map_eq_some_iff] at hstep
    obtain ⟨x', hrun, rfl⟩ := hstep
    exact hs.setHost ((hs h).worker hrun)
  | receive h t box data =>
    simp only [Option.map_eq_some_iff] at hstep
    obtain ⟨x', hrun, rfl⟩ := hstep
    exact hs.setHost ((hs h).call hrun)
  | run h t =>
    simp only [Option.map_eq_some_iff] at hstep
    obtain ⟨x', hrun, rfl⟩ := hstep
    exact hs.setHost ((hs h).run hrun)
  | lose h i =>
    cases hstep
    have hx := hs h
    exact hs.setSocket ⟨hx.running, hx.fault, hx.output, hx.line.lose i, hx.boxes, hx.taken,
      hx.messages⟩

omit [DecidableEq τ] in
theorem hostOk_start (h : BitVec 32) (buffer inbox : Bytes) (mail : Mail) :
    HostOk numBoxes [] [] h (Host.start buffer inbox mail : Host τ) where
  running := rfl
  fault _ he := by cases he
  output := ⟨Driver.inv_start rfl rfl, rfl, fun _ _ hr => by cases hr⟩
  line := ⟨fun _ hq => (by cases hq), .nil, rfl, .inl ⟨rfl, rfl, rfl, rfl⟩,
    fun _ _ he => by cases he⟩
  boxes := ⟨fun _ => SynchList.inv_start, fun _ => rfl, fun _ _ => rfl, fun _ => rfl,
    fun _ hk => (by cases hk), fun _ _ he => by cases he⟩
  taken := by
    have hnone : ∀ t box k, ¬Holds (Host.start buffer inbox mail : Host τ) t box k := by
      rintro t box k (⟨_, _, hp⟩ | hp) <;> cases hp
    exact ⟨fun t b k hk => absurd hk (hnone t b k), fun t b k hk => absurd hk (hnone t b k),
      fun t _ b _ k hk => absurd hk (hnone t b k), fun _ hr => (by cases hr), .nil,
      fun _ => Nat.zero_le _, fun t b k hk => absurd hk (hnone t b k), fun _ hr => by cases hr⟩
  messages _ hr := by cases hr

/-- The transmissions to a mailbox of a machine, in order. -/
def matching (sent : List (BitVec 32 × Sending)) (h : BitVec 32) (box : Int) : List ℕ :=
  (List.range sent.length).filter fun k =>
    (sent[k]?).any fun m => m.2.pktHdr.dest = h ∧ m.2.mailHdr.dest.toInt = box

/-- What the post offices do for their users.  The calls of `Receive` for a mailbox take the
messages out in the order of transmission, so that a call that is made after another one has
returned gets a later one. -/
structure Delivery (numBoxes : BitVec 32 → Int) (s : System τ) : Prop where
  message : ∀ h, ∀ r ∈ (s.host h).received,
    MessageAt numBoxes s.sent h r.k r.box r.pktHdr r.mailHdr r.data
  ordered : ∀ h box, ((s.host h).boxes box).removed.Sublist (matching s.sent h box)
  returned : ∀ h, ∀ r ∈ (s.host h).received, r.k ∈ ((s.host h).boxes r.box).removed
  inTurn : ∀ h, ∀ r ∈ (s.host h).received, ∀ r' ∈ (s.host h).received.take r.called,
    r'.box = r.box → r'.k < r.k
  once : ∀ h, ((s.host h).received.map Received.k).Nodup
  oneHost : ∀ h h', ∀ r ∈ (s.host h).received, ∀ r' ∈ (s.host h').received, r.k = r'.k → h = h'
  /-- Every accepted packet is in a mailbox, in the worker's hands or still in the device. -/
  kept : ∀ h, (s.host h).accepted =
    (s.host h).delivered ++ (s.host h).worker.inHand ++ (s.host h).held.toList
  device : ∀ h, ∀ k ∈ (s.host h).held,
    LetterAt numBoxes s.sent h k (s.host h).input.inHdr (s.host h).input.inbox
  sorting : ∀ h k hdr, (s.host h).worker = .sort k hdr →
    LetterAt numBoxes s.sent h k hdr (s.host h).buffer
  boxes : ∀ h box, ((s.host h).boxes box).appended =
    (s.host h).delivered.filter fun k => boxOf s.sent k = box
  /-- No check fails but that of `Receive` for a mailbox that is not there. -/
  running : ∀ h, (s.host h).aborted = false ∧ (s.host h).output.fault = none ∧
    ∀ e, (s.host h).fault = some e → e = .receiveBox

omit [DecidableEq τ] in
theorem MessageAt.mem_matching {pktHdr : PacketHeader} {mailHdr : MailHeader} {data : Bytes}
    (hm : MessageAt numBoxes sent h k box pktHdr mailHdr data) : k ∈ matching sent h box := by
  obtain ⟨src, a, hs, hbox, -⟩ := hm
  unfold matching
  rw [List.mem_filter, List.mem_range, hs.sent]
  exact ⟨hs.lt, by simp [hs.dest, hbox]⟩

omit [DecidableEq τ] in
theorem HostOk.removed_sublist (hx : HostOk numBoxes sent socket h x) (box : Int) :
    (x.boxes box).removed.Sublist (matching sent h box) := by
  have hlt : (x.boxes box).removed.Pairwise (· < ·) := by
    have happ := appended_lt hx.line hx.boxes box
    rw [(hx.boxes.lists box).fifo] at happ
    exact (List.pairwise_append.mp happ).1
  have hnodup : (x.boxes box).removed.Nodup := hlt.imp ne_of_lt
  have hsub : (x.boxes box).removed ⊆ matching sent h box := by
    intro k hk
    obtain ⟨hdel, hbox⟩ := hx.boxes.mem_removed hk
    rw [← hbox]
    exact MessageAt.mem_matching (hx.boxes.mails k hdel)
  have hrange : (matching sent h box).Pairwise (· < ·) := List.pairwise_lt_range.filter _
  exact List.sublist_of_subperm_of_pairwise (hnodup.subperm hsub) hlt hrange

omit [DecidableEq τ] in
theorem SystemOk.delivery (hs : SystemOk numBoxes s) : Delivery numBoxes s where
  message h := (hs h).messages
  ordered h := (hs h).removed_sublist
  returned h := (hs h).taken.returned
  inTurn h r hr := ((hs h).taken.inTurn r hr).2
  once h := (hs h).taken.once
  oneHost h h' r hr r' hr' heq := by
    obtain ⟨src, a, hsent, -⟩ := (hs h).messages r hr
    obtain ⟨src', a', hsent', -⟩ := (hs h').messages r' hr'
    have hsame := hsent.sent
    rw [heq, hsent'.sent] at hsame
    cases hsame
    exact hsent.dest.symm.trans hsent'.dest
  kept h := (hs h).line.kept
  device h k hk := by
    rcases (hs h).line.device with ⟨hnone, -⟩ | ⟨j, hj, hletter, -⟩
    · rw [hnone] at hk
      cases hk
    · rw [hj] at hk
      cases hk
      exact hletter
  sorting h := (hs h).line.sorting
  boxes h := (hs h).boxes.appended
  running h := ⟨(hs h).running, (hs h).output.running, (hs h).fault⟩

/-- Whatever the threads of all machines do, and whatever the network loses. -/
theorem post_delivers (numBoxes : BitVec 32 → Int) (buffer inbox : BitVec 32 → Bytes)
    (mail : BitVec 32 → Mail) (s : System τ)
    (hreach : Reach (step numBoxes) (Allowed numBoxes) (start buffer inbox mail) s) :
    Delivery numBoxes s := by
  refine SystemOk.delivery (hreach.invariant (fun h => ?_) fun s a s' hs hok hstep => ?_)
  · exact hostOk_start h (buffer h) (inbox h) (mail h)
  · exact systemOk_step hs hok hstep

end steps

def letter : Sending where
  pktHdr := ⟨1, 0, 0⟩
  mailHdr := ⟨2, 5, 3⟩
  data _ := 7
  buffer _ := 0
  wire _ := 0
  lost := false

/-- Thread 2 of machine 1 waits for the letter that thread 1 of machine 0 sends. -/
theorem post_delivers_letter :
    let fresh : Bytes := fun _ => 0
    ∃ s : System ℕ, Reach (step fun _ => 3) (Allowed fun _ => 3)
        (start (fun _ => fresh) (fun _ => fresh) fun _ => ⟨⟨0, 0, 0⟩, ⟨0, 0, 0⟩, fresh⟩) s ∧
      (s.host 1).received.map (fun r => (r.box, r.pktHdr.sender, r.mailHdr)) =
        [(2, 0, ⟨2, 5, 3⟩)] ∧
      (s.host 1).received.map (fun r => [r.data 0, r.data 2, r.data 3]) = [[7, 7, 0]] ∧
      Delivery (fun _ => 3) s := by
  intro fresh
  have hrun : (exec (step fun _ => 3) (Allowed fun _ => 3)
      (start (fun _ => fresh) (fun _ => fresh) fun _ => ⟨⟨0, 0, 0⟩, ⟨0, 0, 0⟩, fresh⟩ : System ℕ)
      [.receive 1 2 2 fun _ => 0, .run 1 2, .run 1 2, .run 1 2, .run 1 2, .run 1 2, .run 1 2,
        .output 0 (.call 1 letter), .output 0 (.run 1), .output 0 (.run 1), .output 0 (.run 1),
        .poll 1 true, .worker 1 fresh, .worker 1 fresh, .worker 1 fresh, .worker 1 fresh,
        .run 1 2, .run 1 2, .run 1 2, .run 1 2, .worker 1 fresh, .worker 1 fresh,
        .worker 1 fresh, .worker 1 fresh, .worker 1 fresh, .worker 1 fresh, .worker 1 fresh,
        .run 1 2, .run 1 2, .worker 1 fresh, .worker 1 fresh, .worker 1 fresh, .run 1 2,
        .run 1 2, .run 1 2, .run 1 2, .run 1 2, .run 1 2, .run 1 2, .run 1 2, .run 1 2]).map
        (fun s => ((s.host 1).received.map (fun r => (r.box, r.pktHdr.sender, r.mailHdr)),
          (s.host 1).received.map (fun r => [r.data 0, r.data 2, r.data 3]))) =
      some ([(2, 0, ⟨2, 5, 3⟩)], [[7, 7, 0]]) := by
    decide +kernel
  obtain ⟨s, hs, hfacts⟩ := Option.map_eq_some_iff.mp hrun
  have hr := reach_of_exec _ hs
  exact ⟨s, hr, congrArg Prod.fst hfacts, congrArg Prod.snd hfacts, post_delivers _ _ _ _ s hr⟩

end PostOffice
end Nachos
