import Nachos.FileChecks

namespace Nachos
open TwosComplement Programs

/-- What a translation depends on: `use` and `dirty` only record that it was made. -/
def TranslationEntry.core (e : TranslationEntry) : Int × Bool × Bool :=
  (e.physicalPage, e.valid, e.readOnly)

namespace Machine
variable {m m' : Machine} {addr size v : Int} {writing : Bool}

def layout (m : Machine) : Bool × Option (List (Int × Bool × Bool)) × ℕ :=
  (m.tlb.isNone, m.pageTable.map (List.map TranslationEntry.core), m.pageTableSize)

def image (m : Machine) : (Bool × Option (List (Int × Bool × Bool)) × ℕ) × Memory :=
  (m.layout, m.mainMemory)

theorem map_core_set {t : List TranslationEntry} {i : ℕ} {e e' : TranslationEntry}
    (he : t[i]? = some e) (hcore : e'.core = e.core) :
    (t.set i e').map TranslationEntry.core = t.map TranslationEntry.core := by
  apply List.ext_getElem?
  intro j
  rw [List.getElem?_map, List.getElem?_map]
  by_cases hij : i = j
  · subst hij
    rw [List.getElem?_set_self (List.getElem?_eq_some_iff.mp he).1, he, Option.map_some,
      Option.map_some, hcore]
  · rw [List.getElem?_set_ne hij]

theorem findEntry_image {vpn : ℕ} {entry e' : TranslationEntry} {m₀ : Machine}
    {put : TranslationEntry → Machine} (h : m.findEntry vpn = .done (entry, put) m₀)
    (hcore : e'.core = entry.core) : (put e').image = m.image := by
  unfold findEntry at h
  split at h
  · split_ifs at h
    split at h
    · cases h
    · next e he =>
      split_ifs at h
      cases h
      obtain ⟨t, ht, hte⟩ := Option.bind_eq_some_iff.mp he
      simp only [image, layout, ht, Option.map_some, map_core_set hte hcore]
  · next t ht =>
    split at h
    · cases h
    · split at h
      · cases h
      · cases h
        simp only [image, layout, ht, Option.isNone_some]

theorem translate_image {pa : Int} (h : m.translate addr size writing = .done pa m') :
    m'.image = m.image := by
  unfold translate at h
  split_ifs at h
  dsimp only at h
  split at h
  · cases h
  · cases h
  · next he =>
    split_ifs at h
    cases h
    exact findEntry_image he rfl

theorem readMem_image (h : m.readMem addr size = .done v m') : m'.image = m.image := by
  unfold readMem at h
  split at h
  · cases h
  · cases h
  · next ht =>
    split at h <;> cases h
    exact translate_image ht

theorem writeMem_layout {value : Int} (h : m.writeMem addr size value = .done () m') :
    m'.layout = m.layout := by
  unfold writeMem at h
  split at h
  · cases h
  · cases h
  · next ht =>
    split at h <;> cases h
    exact congrArg Prod.fst (translate_image ht)

theorem tlb_of_layout (htlb : m.tlb = none) (h : m'.layout = m.layout) : m'.tlb = none := by
  have := congrArg Prod.fst h
  simpa [layout, htlb] using this

theorem translate_seen_layout (htlb : m.tlb = none) (h : m'.layout = m.layout) (addr size : Int)
    (writing : Bool) :
    (m'.translate addr size writing).seen = (m.translate addr size writing).seen := by
  have htlb' := tlb_of_layout htlb h
  have hsize : m'.pageTableSize = m.pageTableSize := congrArg (·.2.2) h
  have htable : m'.pageTable.map (List.map TranslationEntry.core) =
      m.pageTable.map (List.map TranslationEntry.core) := congrArg (·.2.1) h
  cases ht : m.pageTable with
  | none =>
    rw [ht, Option.map_none, Option.map_eq_none_iff] at htable
    simp only [translate, htlb, htlb', ht, htable, Option.isNone_none, if_true]
    split_ifs <;> rfl
  | some t =>
    rw [ht, Option.map_some] at htable
    obtain ⟨t', ht', hcore⟩ := Option.map_eq_some_iff.mp htable
    have hentry := congrArg (·[unsigned addr / pageSize]?) hcore
    simp only [List.getElem?_map] at hentry
    rw [translate_eq htlb ht, translate_eq htlb' ht', hsize]
    split_ifs
    · rfl
    · rfl
    · cases he : t[unsigned addr / pageSize]? with
      | none =>
        rw [he, Option.map_none, Option.map_eq_none_iff] at hentry
        rw [hentry]
      | some e =>
        rw [he, Option.map_some] at hentry
        obtain ⟨e', he', hec⟩ := Option.map_eq_some_iff.mp hentry
        simp only [TranslationEntry.core, Prod.mk.injEq] at hec
        rw [he']
        dsimp only
        rw [hec.1, hec.2.1, hec.2.2]
        split_ifs <;> rfl

theorem readMem_seen (m : Machine) (addr size : Int) : (m.readMem addr size).seen =
    (m.translate addr size false).seen.bind fun r => match r with
      | .inl e => some (.inl e)
      | .inr pa => (load m.mainMemory pa size).map .inr := by
  unfold readMem
  cases ht : m.translate addr size false with
  | raised e m' => rfl
  | abort => rfl
  | done pa m' =>
    have hmem : m'.mainMemory = m.mainMemory := congrArg Prod.snd (translate_image ht)
    simp only [Outcome.seen, Option.bind_some, hmem]
    cases load m.mainMemory pa size <;> rfl

theorem readMem_seen_image (htlb : m.tlb = none) (h : m'.image = m.image) (addr size : Int) :
    (m'.readMem addr size).seen = (m.readMem addr size).seen := by
  rw [readMem_seen, readMem_seen, translate_seen_layout htlb (congrArg Prod.fst h),
    show m'.mainMemory = m.mainMemory from congrArg Prod.snd h]

/-- Of the at most `n` bytes from `addr` on, up to a NUL, one cannot be read. -/
def BadString (m : Machine) : Int → ℕ → Prop
  | _, 0 => False
  | addr, n + 1 => (∃ e, (m.readMem addr 1).seen = some (.inl e)) ∨
      (∃ v, (m.readMem addr 1).seen = some (.inr v) ∧ v ≠ 0) ∧ BadString m (wrap (addr + 1)) n

/-- Of the at most `n` bytes that the bytes of `b` from `i` on, up to a NUL, go to, one
cannot be written. -/
def BadStore (m : Machine) (b : ℕ → UInt8) : Int → ℕ → ℕ → Prop
  | _, _, 0 => False
  | addr, i, n + 1 => (∃ e, (m.translate addr 1 true).seen = some (.inl e)) ∨
      (∃ pa, (m.translate addr 1 true).seen = some (.inr pa)) ∧ b i ≠ 0 ∧
        BadStore m b (wrap (addr + 1)) (i + 1) n

theorem badString_image (htlb : m.tlb = none) (h : m'.image = m.image) {n : ℕ}
    (hbad : m.BadString addr n) : m'.BadString addr n := by
  induction n generalizing addr with
  | zero => exact hbad
  | succ n ih =>
    unfold BadString at hbad ⊢
    rw [readMem_seen_image htlb h]
    exact hbad.imp_right (And.imp_right ih)

theorem badStore_layout (htlb : m.tlb = none) (h : m'.layout = m.layout) {b : ℕ → UInt8}
    {i n : ℕ} (hbad : m.BadStore b addr i n) : m'.BadStore b addr i n := by
  induction n generalizing addr i with
  | zero => exact hbad
  | succ n ih =>
    unfold BadStore at hbad ⊢
    rw [translate_seen_layout htlb h]
    exact hbad.imp_right (And.imp_right (And.imp_right ih))

end Machine

namespace Sys
variable {κ α β : Type} {k k' : Kernel κ} {env : Env}

def Halts (r : Except Stop α) : Prop := ∃ e, r = .error (.halt e)

theorem halts_bind {f : Sys κ α} {g : α → Sys κ β} (h : Halts (f k)) : Halts ((f >>= g) k) := by
  obtain ⟨e, he⟩ := h
  exact ⟨e, bind_of_error he⟩

theorem halts_after {f : Sys κ α} {g : α → Sys κ β} {a : α} (hf : f k = .ok (a, k'))
    (h : Halts (g a k')) : Halts ((f >>= g) k) := by
  rw [bind_of_ok hf]
  exact h

theorem copyIn_halts (htlb : k.machine.tlb = none) {addr oneChar : Int} {n : ℕ}
    (h : k.machine.BadString addr n) : Halts (copyIn addr oneChar n k) := by
  induction n generalizing addr oneChar k with
  | zero => exact h.elim
  | succ n ih =>
    rcases h with ⟨e, he⟩ | ⟨⟨v, hv, hne⟩, hrest⟩
    · obtain ⟨m', hm'⟩ := Machine.Outcome.raised_of_seen he
      refine halts_bind ⟨e, ?_⟩
      rw [readMem_eq, hm']
    · obtain ⟨m', hm'⟩ := Machine.Outcome.done_of_seen hv
      have himage := Machine.readMem_image hm'
      have hread : readMem addr 1 k = .ok (some v, { k with machine := m' }) := by
        rw [readMem_eq, hm']
      refine halts_after hread ?_
      rw [Option.getD_some, if_neg hne]
      have htlb' : m'.tlb = none := Machine.tlb_of_layout htlb (congrArg Prod.fst himage)
      exact halts_bind (ih htlb' (Machine.badString_image htlb himage hrest))

theorem user2System_halts (htlb : k.machine.tlb = none) {virtAddr limit : Int}
    (halloc : 0 ≤ wrap (limit + 1)) (h : k.machine.BadString virtAddr limit.toNat) :
    Halts (user2System env virtAddr limit k) := by
  have hnew : newBuffer (wrap (limit + 1)) env.junk k =
      .ok (⟨(wrap (limit + 1)).toNat, env.junk⟩, k) := by
    rw [newBuffer, if_neg (not_lt.mpr halloc)]
    rfl
  exact halts_after hnew (halts_bind (copyIn_halts htlb h))

theorem charToInt_ne_zero {c : UInt8} (h : c ≠ 0) : charToInt c ≠ 0 := by
  intro hc
  apply h
  apply UInt8.toBitVec_inj.mp
  exact BitVec.eq_of_toInt_eq hc

theorem copyOut_halts (htlb : k.machine.tlb = none) {addr : Int} {b : ℕ → UInt8} {i n : ℕ}
    (h : k.machine.BadStore b addr i n) : Halts (copyOut addr b i n k) := by
  induction n generalizing addr i k with
  | zero => exact h.elim
  | succ n ih =>
    rcases h with ⟨e, he⟩ | ⟨⟨pa, hpa⟩, hne, hrest⟩
    · obtain ⟨m', hm'⟩ := Machine.Outcome.raised_of_seen he
      refine halts_bind ⟨e, ?_⟩
      rw [writeMem_eq, Machine.writeMem, hm']
    · obtain ⟨m', hm'⟩ := Machine.Outcome.done_of_seen hpa
      obtain ⟨m'', hm''⟩ : ∃ m'', k.machine.writeMem addr 1 (charToInt (b i)) = .done () m'' := by
        rw [Machine.writeMem, hm']
        exact ⟨_, rfl⟩
      have hlayout := Machine.writeMem_layout hm''
      have hwrite : writeMem addr 1 (charToInt (b i)) k = .ok ((), { k with machine := m'' }) := by
        rw [writeMem_eq, hm'']
      refine halts_after hwrite ?_
      rw [if_neg (charToInt_ne_zero hne)]
      have htlb' : m''.tlb = none := Machine.tlb_of_layout htlb hlayout
      exact ih htlb' (Machine.badStore_layout htlb hlayout hrest)

theorem system2User_halts (htlb : k.machine.tlb = none) {virtAddr len : Int} {b : Buffer}
    (h : k.machine.BadStore b.byte virtAddr 0 len.toNat) :
    Halts (system2User virtAddr len b k) := by
  have hpos : 0 < len := by
    by_contra hle
    rw [Int.toNat_of_nonpos (not_lt.mp hle)] at h
    exact h
  rw [system2User, if_neg (by omega), if_neg (by omega)]
  exact copyOut_halts htlb h

def image (k : Kernel κ) : (Bool × Option (List (Int × Bool × Bool)) × ℕ) × Memory :=
  k.machine.image

theorem keeps_image {f : Sys κ α} (h : Keeps Kernel.machine f) : Keeps image f :=
  h.comp Machine.image

theorem keeps_image_readMem (addr size : Int) :
    Keeps image (readMem addr size : Sys κ (Option Int)) := by
  intro k a k' h
  rw [readMem_eq] at h
  split at h
  · next hr =>
    cases h
    exact Machine.readMem_image hr
  · cases h
  · cases h

theorem keeps_image_user2System (env : Env) (virtAddr limit : Int) :
    Keeps image (user2System env virtAddr limit : Sys κ Buffer) :=
  user2System_keeps keeps_image_readMem env virtAddr limit

theorem keeps_machine_onFile (i : Fin 20)
    (m : OpenFile → Host → Except Stop (α × OpenFile × Host)) :
    Keeps Kernel.machine (onFile i m : Sys κ α) := by
  intro k a k' h
  unfold onFile at h
  split at h
  · cases h
  · split at h <;> cases h
    rfl

theorem keeps_machine_setOverrun (b : Bool) :
    Keeps Kernel.machine (setOverrun b : Sys κ Unit) := keeps_modify fun _ => rfl

theorem keeps_machine_read (env : Env) (i : Fin 20) (buf : Buffer) (count : Int) :
    Keeps Kernel.machine (read env i buf count : Sys κ (Int × Buffer)) := by
  refine keeps_bind (keeps_machine_onFile _ _) fun r => ?_
  exact keeps_bind (keeps_machine_setOverrun _) fun _ => keeps_pure _

theorem keeps_machine_readChar : Keeps Kernel.machine (readChar : Sys κ UInt8) := by
  intro k a k' h
  unfold readChar at h
  split at h <;> cases h
  rfl

theorem keeps_machine_readLine (n : ℕ) :
    Keeps Kernel.machine (readLine n : Sys κ (List UInt8)) := by
  induction n with
  | zero => exact keeps_pure _
  | succ n ih =>
    refine keeps_bind keeps_machine_readChar fun c => ?_
    exact does_ite (fun _ => keeps_pure _) fun _ => keeps_bind ih fun _ => keeps_pure _

theorem keeps_machine_readUntilNewline :
    Keeps Kernel.machine (readUntilNewline : Sys κ (List UInt8)) := by
  intro k a k' h
  unfold readUntilNewline at h
  dsimp only at h
  split at h
  · cases h
  · split_ifs at h
    cases h
    rfl

theorem keeps_machine_putChar (ch : UInt8) : Keeps Kernel.machine (putChar ch : Sys κ Unit) := by
  intro k a k' h
  cases h
  rfl

theorem keeps_machine_putUntilNul (b : Buffer) (lengthWrite n : ℕ) :
    Keeps Kernel.machine (putUntilNul b lengthWrite n : Sys κ ℕ) := by
  induction n generalizing lengthWrite with
  | zero => exact keeps_pure _
  | succ n ih =>
    refine does_ite (fun _ => keeps_pure _) fun _ => ?_
    exact keeps_bind (keeps_machine_putChar _) fun _ => ih _

theorem keeps_machine_newPointers (size : Int) :
    Keeps Kernel.machine (newPointers size : Sys κ Unit) :=
  does_ite (fun _ => does_throw _) fun _ => keeps_pure _

inductive Copy
  | fromUser (virtAddr limit : Int)
  | toUser (virtAddr len : Int) (buffer : Buffer)

/-- A byte that the copy has to access has no translation. -/
def Copy.Bad (m : Machine) : Copy → Prop
  | .fromUser virtAddr limit => 0 ≤ wrap (limit + 1) ∧ m.BadString virtAddr limit.toNat
  | .toUser virtAddr len buffer => m.BadStore buffer.byte virtAddr 0 len.toNat

inductive NextPart (env : Env) : ℕ → Int → Buffer → Kernel κ → Copy → Prop
  | next {fuel virtAddr buf k k₁} : putUntilNul buf 0 255 k = .ok (255, k₁) →
      NextPart env (fuel + 1) virtAddr buf k (.fromUser (wrap (virtAddr + 255)) 255)
  | later {fuel virtAddr buf buf' k k₁ k₂ c} : putUntilNul buf 0 255 k = .ok (255, k₁) →
      user2System env (wrap (virtAddr + 255)) 255 k₁ = .ok (buf', k₂) →
      NextPart env fuel (wrap (virtAddr + 255)) buf' k₂ c →
      NextPart env (fuel + 1) virtAddr buf k c

inductive Argument (env : Env) : Int → ℕ → Kernel κ → Copy → Prop
  | first {addr n k k₁ v} : readMem addr 4 k = .ok (v, k₁) →
      Argument env addr (n + 1) k (.fromUser (v.getD 0) maxFileLength)
  | later {addr n k k₁ k₂ v arg c} : readMem addr 4 k = .ok (v, k₁) →
      user2System env (v.getD 0) maxFileLength k₁ = .ok (arg, k₂) →
      Argument env (wrap (addr + 4)) n k₂ c → Argument env addr (n + 1) k c

/-- The transfers that go on with the file in slot `i` after their first checks. -/
def GoesOn (number : Int) (i : Fin 20) (f : OpenFile) : Prop :=
  number = 7 ∨ (number = 8 ∧ (i : ℕ) ≠ 0 ∧ f.type ≠ 1) ∨ number = 52 ∨ number = 53 ∧ (2 : ℕ) ≤ i

/-- The copies that a system call gets to.  `name` is for `Exec`, `Create`, `Remove`,
`Open`, `CreateSemaphore`, `Wait` and `Signal`, `buffer` for what `Read`, `Write`, `Send`
and `Receive` fetch first. -/
inductive Reaches (env : Env) (k : Kernel κ) : Copy → Prop
  | name : regs k 2 ∈ ([2, 4, 5, 6, 16, 17, 18] : List Int) →
      Reaches env k (.fromUser (regs k 4) 33)
  | printString : regs k 2 = 43 → Reaches env k (.fromUser (regs k 4) 255)
  | connect {i : Fin 20} {f} : regs k 2 = 51 → (i : Int) = regs k 4 → (2 : ℕ) ≤ i →
      k.fileSystem.openfile i = some f → Reaches env k (.fromUser (regs k 5) maxLengthIP)
  | buffer {i : Fin 20} {f} : GoesOn (regs k 2) i f → (i : Int) = regs k 6 →
      k.fileSystem.openfile i = some f → Reaches env k (.fromUser (regs k 4) (regs k 5))
  | readConsole {f p buf line k₁ k₂ k₃} : regs k 2 = 7 → regs k 6 = 0 →
      k.fileSystem.openfile 0 = some f → getCurrentPos 0 k = .ok (p, k₁) →
      user2System env (regs k 4) (regs k 5) k₁ = .ok (buf, k₂) →
      readLine (regs k 5).toNat k₂ = .ok (line, k₃) →
      Reaches env k (.toUser (regs k 4) line.length (buf.store (line ++ [0])))
  | readRegular {i : Fin 20} {f oldPos newPos buf r k₁ k₂ k₃ k₄} : regs k 2 = 7 →
      (i : Int) = regs k 6 → i ≠ 0 → k.fileSystem.openfile i = some f →
      f.type = 0 ∨ f.type = 1 → getCurrentPos i k = .ok (oldPos, k₁) →
      user2System env (regs k 4) (regs k 5) k₁ = .ok (buf, k₂) →
      read env i buf (regs k 5) k₂ = .ok (r, k₃) → 0 < r.1 →
      getCurrentPos i k₃ = .ok (newPos, k₄) →
      Reaches env k (.toUser (regs k 4) (newPos - oldPos) r.2)
  | readSocket {i : Fin 20} {f p buf r k₁ k₂ k₃} : regs k 2 = 7 → (i : Int) = regs k 6 →
      i ≠ 0 → k.fileSystem.openfile i = some f → f.type = 2 → f.isConnect = true →
      getCurrentPos i k = .ok (p, k₁) →
      user2System env (regs k 4) (regs k 5) k₁ = .ok (buf, k₂) →
      read env i buf (regs k 5) k₂ = .ok (r, k₃) → 0 < r.1 →
      Reaches env k (.toUser (regs k 4) r.1 r.2)
  | receive {i : Fin 20} {f buf r k₁ k₂} : regs k 2 = 53 → (i : Int) = regs k 6 →
      (2 : ℕ) ≤ i → k.fileSystem.openfile i = some f → f.type = 2 → f.isConnect = true →
      user2System env (regs k 4) (regs k 5) k = .ok (buf, k₁) →
      read env i buf (regs k 5) k₁ = .ok (r, k₂) → 0 < r.1 →
      Reaches env k (.toUser (regs k 4) r.1 r.2)
  | writeConsole {f p buf k₁ k₂ k₃ c} : regs k 2 = 8 → regs k 6 = 1 →
      k.fileSystem.openfile 1 = some f → f.type ≠ 1 → getCurrentPos 1 k = .ok (p, k₁) →
      user2System env (regs k 4) (regs k 5) k₁ = .ok (buf, k₂) →
      setOverrun (buf.size = 0) k₂ = .ok ((), k₃) →
      NextPart env (2 ^ 32) (regs k 4) buf k₃ c → Reaches env k c
  | readString {buf line k₁ k₂} : regs k 2 = 44 →
      newBuffer (regs k 5) env.junk k = .ok (buf, k₁) → readUntilNewline k₁ = .ok (line, k₂) →
      Reaches env k (.toUser (regs k 4) line.length (buf.store (line ++ [0])))
  | execV {k₁ c} : regs k 2 = 55 → newPointers (wrap (regs k 4 + 1)) k = .ok ((), k₁) →
      Argument env (regs k 5) (regs k 4).toNat k₁ c → Reaches env k c

/-- The kernel's machine translates nothing through a TLB, and the copy is bad. -/
def Fatal (k : Kernel κ) (c : Copy) : Prop := k.machine.tlb = none ∧ c.Bad k.machine

theorem Fatal.of_image {c : Copy} (h : Fatal k c) (himage : image k' = image k) : Fatal k' c := by
  obtain ⟨htlb, hbad⟩ := h
  have hlayout : k'.machine.layout = k.machine.layout := congrArg Prod.fst himage
  refine ⟨Machine.tlb_of_layout htlb hlayout, ?_⟩
  cases c with
  | fromUser virtAddr limit => exact ⟨hbad.1, Machine.badString_image htlb himage hbad.2⟩
  | toUser virtAddr len b => exact Machine.badStore_layout htlb hlayout hbad

theorem Fatal.after {c : Copy} {f : Sys κ α} {a : α} (h : Fatal k c) (hf : Keeps image f)
    (hk : f k = .ok (a, k')) : Fatal k' c := h.of_image (hf k a k' hk)

theorem Fatal.user2System {virtAddr limit : Int} (h : Fatal k (.fromUser virtAddr limit)) :
    Halts (user2System env virtAddr limit k) := user2System_halts h.1 h.2.1 h.2.2

theorem Fatal.system2User {virtAddr len : Int} {b : Buffer} (h : Fatal k (.toUser virtAddr len b)) :
    Halts (system2User virtAddr len b k) := system2User_halts h.1 h.2

theorem putString_halts {fuel : ℕ} {virtAddr : Int} {buf : Buffer} {c : Copy}
    (hc : NextPart env fuel virtAddr buf k c) (h : Fatal k c) :
    Halts (putString env fuel virtAddr buf k) := by
  induction hc with
  | next hk₁ =>
    refine halts_after hk₁ ?_
    exact halts_bind (h.after (keeps_image (keeps_machine_putUntilNul _ _ _)) hk₁).user2System
  | later hk₁ hk₂ _ ih =>
    refine halts_after hk₁ (halts_after hk₂ (ih ?_))
    have h₁ := h.after (keeps_image (keeps_machine_putUntilNul _ _ _)) hk₁
    exact h₁.after (keeps_image_user2System _ _ _) hk₂

theorem readArgs_halts {addr : Int} {n : ℕ} {c : Copy} (hc : Argument env addr n k c)
    (h : Fatal k c) : Halts (readArgs env addr n k) := by
  induction hc with
  | first hk₁ =>
    refine halts_after hk₁ ?_
    exact halts_bind (h.after (keeps_image_readMem _ _) hk₁).user2System
  | later hk₁ hk₂ _ ih =>
    refine halts_after hk₁ (halts_after hk₂ (halts_bind (ih ?_)))
    exact (h.after (keeps_image_readMem _ _) hk₁).after (keeps_image_user2System _ _ _) hk₂

theorem string_halts {limit : Int} {g : Buffer → Sys κ Unit}
    (h : Fatal k (.fromUser (regs k 4) limit)) :
    Halts ((readRegister 4 >>= fun virtAddr => user2System env virtAddr limit >>= g) k) :=
  halts_after rfl (halts_bind h.user2System)

theorem name_halts {svc : Services κ} (hn : regs k 2 ∈ ([2, 4, 5, 6, 16, 17, 18] : List Int))
    (h : Fatal k (.fromUser (regs k 4) 33)) : Halts (syscall svc env (regs k 2) k) := by
  simp only [List.mem_cons, List.not_mem_nil, or_false] at hn
  rcases hn with hn | hn | hn | hn | hn | hn | hn <;> rw [hn] <;> dsimp only [syscall]
  · exact string_halts h
  · exact string_halts h
  · exact string_halts h
  · simp only [scOpen, readRegister_bind]
    exact halts_bind h.user2System
  · exact halts_after rfl (string_halts h)
  · exact string_halts h
  · exact string_halts h

theorem buffer_halts {svc : Services κ} {i : Fin 20} {f : OpenFile} (hg : GoesOn (regs k 2) i f)
    (hi : (i : Int) = regs k 6) (hf : k.fileSystem.openfile i = some f)
    (h : Fatal k (.fromUser (regs k 4) (regs k 5))) : Halts (syscall svc env (regs k 2) k) := by
  have hpos : ∃ p k₁, getCurrentPos i k = .ok (p, k₁) := ⟨_, _, onFile_eq hf rfl⟩
  obtain ⟨p, k₁, hk₁⟩ := hpos
  have h₁ := h.after (keeps_image (keeps_machine_onFile _ _)) hk₁
  rcases hg with hn | ⟨hn, hi0, ht⟩ | hn | ⟨hn, hi2⟩ <;> rw [hn] <;> dsimp only [syscall]
  · simp only [scRead, readRegister_bind, byId_live 0 hi (by omega) hf]
    exact halts_after hk₁ (halts_bind h₁.user2System)
  · have hi6 : regs k 6 ≠ 0 := by omega
    simp only [scWrite, readRegister_bind, byId_live 0 hi (by omega) hf, hi6, ht, or_self, if_false]
    exact halts_after hk₁ (halts_bind h₁.user2System)
  · simp only [scSend, readRegister_bind, byId_live 0 hi (by omega) hf]
    exact halts_bind h.user2System
  · simp only [scReceive, readRegister_bind, byId_live 2 hi (by omega) hf]
    exact halts_bind h.user2System

theorem syscall_halts {svc : Services κ} {c : Copy} (hc : Reaches env k c) (h : Fatal k c) :
    Halts (syscall svc env (regs k 2) k) := by
  -- what a call does before the bad copy leaves the image of the memory alone, so that the copy is
  -- still bad when the call gets to it
  cases hc with
  | name hn => exact name_halts hn h
  | printString hn =>
    rw [hn]
    exact string_halts h
  | connect hn hi hlo hf =>
    rw [hn]
    dsimp only [syscall]
    simp only [scConnect, readRegister_bind, byId_live 2 hi (by omega) hf]
    exact halts_bind h.user2System
  | buffer hg hi hf => exact buffer_halts hg hi hf h
  | readConsole hn h6 hf hk₁ hk₂ hk₃ =>
    rw [hn]
    dsimp only [syscall]
    simp only [scRead, readRegister_bind, byId_live 0 (i := 0) h6.symm h6.ge hf]
    refine halts_after hk₁ (halts_after hk₂ ?_)
    rw [if_pos h6]
    refine halts_after hk₃ ?_
    have h₁ := h.after (keeps_image (keeps_machine_onFile _ _)) hk₁
    have h₂ := h₁.after (keeps_image_user2System _ _ _) hk₂
    have h₃ := h₂.after (keeps_image (keeps_machine_readLine _)) hk₃
    refine halts_after rfl (halts_bind ?_)
    exact (h₃.after (keeps_image (keeps_machine_setOverrun _)) rfl).system2User
  | readRegular hn hi hi0 hf ht hk₁ hk₂ hk₃ hr hk₄ =>
    have h₁ := h.after (keeps_image (keeps_machine_onFile _ _)) hk₁
    have h₂ := h₁.after (keeps_image_user2System _ _ _) hk₂
    have h₃ := h₂.after (keeps_image (keeps_machine_read _ _ _ _)) hk₃
    have h₄ := h₃.after (keeps_image (keeps_machine_onFile _ _)) hk₄
    have h6 : regs k 6 ≠ 0 := by omega
    rw [hn]
    dsimp only [syscall]
    simp only [scRead, readRegister_bind, byId_live 0 hi (by omega) hf, if_neg h6, if_pos ht]
    refine halts_after hk₁ (halts_after hk₂ (halts_after hk₃ ?_))
    dsimp only
    rw [if_pos hr]
    exact halts_after hk₄ (halts_bind h₄.system2User)
  | readSocket hn hi hi0 hf ht hc hk₁ hk₂ hk₃ hr =>
    have h₁ := h.after (keeps_image (keeps_machine_onFile _ _)) hk₁
    have h₂ := h₁.after (keeps_image_user2System _ _ _) hk₂
    have h₃ := h₂.after (keeps_image (keeps_machine_read _ _ _ _)) hk₃
    have h6 : regs k 6 ≠ 0 := by omega
    have htype : ∀ {t : Int}, t = 2 → ¬(t = 0 ∨ t = 1) := by omega
    rw [hn]
    dsimp only [syscall]
    simp only [scRead, readRegister_bind, byId_live 0 hi (by omega) hf, if_neg h6,
      if_neg (htype ht), if_pos (And.intro ht hc)]
    refine halts_after hk₁ (halts_after hk₂ (halts_after hk₃ ?_))
    dsimp only
    rw [if_pos hr]
    exact halts_bind h₃.system2User
  | receive hn hi hlo hf ht hc hk₁ hk₂ hr =>
    have h₁ := h.after (keeps_image_user2System _ _ _) hk₁
    have h₂ := h₁.after (keeps_image (keeps_machine_read _ _ _ _)) hk₂
    rw [hn]
    dsimp only [syscall]
    simp only [scReceive, readRegister_bind, byId_live 2 hi (by omega) hf,
      if_pos (And.intro ht hc)]
    refine halts_after hk₁ (halts_after hk₂ ?_)
    dsimp only
    rw [if_pos hr]
    exact halts_bind h₂.system2User
  | writeConsole hn h6 hf ht hk₁ hk₂ hk₃ hpart =>
    have h₁ := h.after (keeps_image (keeps_machine_onFile _ _)) hk₁
    have h₂ := h₁.after (keeps_image_user2System _ _ _) hk₂
    have h₃ := h₂.after (keeps_image (keeps_machine_setOverrun _)) hk₃
    rw [hn]
    dsimp only [syscall]
    simp only [scWrite, readRegister_bind, byId_live 0 (i := 1) h6.symm (by omega) hf]
    rw [if_neg (by omega)]
    refine halts_after hk₁ (halts_after hk₂ ?_)
    rw [if_pos h6]
    exact halts_after hk₃ (halts_bind (putString_halts hpart h₃))
  | readString hn hk₁ hk₂ =>
    have h₁ := h.after (keeps_newBuffer _ _) hk₁
    have h₂ := h₁.after (keeps_image keeps_machine_readUntilNewline) hk₂
    rw [hn]
    dsimp only [syscall]
    simp only [scReadString, readRegister_bind]
    refine halts_after hk₁ (halts_after hk₂ (halts_after rfl (halts_bind ?_)))
    exact (h₂.after (keeps_image (keeps_machine_setOverrun _)) rfl).system2User
  | execV hn hk₁ hargs =>
    have h₁ := h.after (keeps_image (keeps_machine_newPointers _)) hk₁
    rw [hn]
    dsimp only [syscall]
    simp only [scExecV, readRegister_bind]
    exact halts_after hk₁ (halts_bind (readArgs_halts hargs h₁))

/-- The call has come back with a negative result, and the tables are as they were. -/
def Reported (k : Kernel κ) (r : Except Stop (Unit × Kernel κ)) : Prop :=
  ∃ k', r = .ok ((), k') ∧ regs k' 2 < 0 ∧ k'.fileSystem = k.fileSystem ∧ k'.tables = k.tables

/-- A system call that gets to a copy of which some byte has no translation always ends in
`Halt`, and is never reported. -/
theorem bad_pointer_halts (svc : Services κ) (env : Env) {c : Copy} (htlb : k.machine.tlb = none)
    (hc : Reaches env k c) (hbad : c.Bad k.machine) :
    Halts (exceptionHandler svc env .syscallException k) ∧
      ¬Reported k (exceptionHandler svc env .syscallException k) := by
  have hhalts : Halts (exceptionHandler svc env .syscallException k) :=
    syscall_halts hc ⟨htlb, hbad⟩
  refine ⟨hhalts, ?_⟩
  rintro ⟨k', hk', -⟩
  obtain ⟨e, he⟩ := hhalts
  cases he.symm.trans hk'

/-- `Create` with a name in the second page of a process that has only one. -/
theorem bad_pointer_halts_create :
    let k := (World.smallCall 4 128 0 0 noEnv).enter World.smallKernel
    ((Copy.fromUser 128 33).Bad k.machine ∧
      ¬Reported k (exceptionHandler zeroServices noEnv .syscallException k)) := by
  intro k
  have hbad : (Copy.fromUser 128 33).Bad k.machine := ⟨by decide, .inl ⟨_, rfl⟩⟩
  exact ⟨hbad, (bad_pointer_halts zeroServices noEnv rfl (.name (by decide)) hbad).2⟩

/-- `PrintString` of an address that is far outside stops the machine for all processes. -/
theorem printString_halts : exceptionHandler zeroServices noEnv .syscallException
    ((World.smallCall 43 100000 0 0 noEnv).enter World.smallKernel) =
      .error (.halt .addressErrorException) := rfl

end Sys
end Nachos
