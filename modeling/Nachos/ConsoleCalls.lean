import Mathlib.Data.List.TakeWhile
import Mathlib.Data.Nat.Digits.Lemmas
import Nachos.FileTransfer

namespace Nachos
open TwosComplement Programs Buffers

namespace Sys
variable {κ : Type} {k k' : Kernel κ} {env : Env}

theorem keeps_console_user2System (env : Env) (virtAddr limit : Int) :
    Keeps Kernel.console (user2System env virtAddr limit : Sys κ Buffer) :=
  user2System_keeps (readMem_keeps fun _ _ => rfl) env virtAddr limit

theorem keeps_console_getCurrentPos (i : Fin 20) :
    Keeps Kernel.console (getCurrentPos i : Sys κ Int) := by
  intro k a k' h
  unfold getCurrentPos onFile at h
  split at h
  · cases h
  · cases h
    rfl

theorem putUntilNul_ok {b : Buffer} {lengthWrite n r : ℕ}
    (h : putUntilNul b lengthWrite n k = .ok (r, k')) :
    ∃ out, k'.console = k.console ++ out ∧ r = lengthWrite + out.length ∧ out.length ≤ n := by
  induction n generalizing k lengthWrite with
  | zero =>
    cases h
    exact ⟨[], (List.append_nil _).symm, rfl, le_rfl⟩
  | succ n ih =>
    unfold putUntilNul at h
    split at h
    · cases h
      exact ⟨[], (List.append_nil _).symm, rfl, Nat.zero_le _⟩
    · obtain ⟨_, k₁, hput, h⟩ := bind_ok h
      cases hput
      obtain ⟨out, hconsole, hr, hle⟩ := ih h
      refine ⟨b.byte lengthWrite :: out, ?_, ?_, ?_⟩
      · rw [hconsole, List.append_assoc]
        rfl
      · rw [List.length_cons]
        omega
      · rw [List.length_cons]
        omega

theorem putString_ok {fuel : ℕ} {virtAddr : Int} {buf : Buffer} {r : Int}
    (h : putString env fuel virtAddr buf k = .ok (r, k')) :
    ∃ out, k'.console = k.console ++ out ∧ r = (out.length % 255 : ℕ) - 1 := by
  induction fuel generalizing k virtAddr buf with
  | zero => cases h
  | succ fuel ih =>
    obtain ⟨n, k₁, hput, h⟩ := bind_ok h
    obtain ⟨out, hconsole, hn, hle⟩ := putUntilNul_ok hput
    rw [zero_add] at hn
    rcases ite_ok h with ⟨hfull, h⟩ | ⟨hne, h⟩
    · obtain ⟨b, k₂, hcopy, h⟩ := bind_ok h
      obtain ⟨rest, hrest, hr⟩ := ih h
      refine ⟨out ++ rest, ?_, ?_⟩
      · rw [hrest, keeps_console_user2System _ _ _ _ _ _ hcopy, hconsole, List.append_assoc]
      · rw [hr, List.length_append, ← hn, hfull, Nat.add_mod_left]
    · cases h
      refine ⟨out, hconsole, ?_⟩
      rw [Nat.mod_eq_of_lt (by omega), hn]

/-- What `Write` on descriptor 1 is for: the string in the user's buffer goes to the console,
nothing behind the buffer matters, and the length of the string comes back. -/
def PutsString (svc : Services κ) (env : Env) (k : Kernel κ) : Prop :=
  ∃ k', exceptionHandler svc env .syscallException k = .ok ((), k') ∧
    k'.console = k.console ++
      cString (shift k.machine.virtualByte (unsigned (regs k 4))) (regs k 5).toNat ∧
    regs k' 2 = (cString (shift k.machine.virtualByte (unsigned (regs k 4)))
      (regs k 5).toNat).length ∧
    ∀ m : Machine, m.layout = k.machine.layout → m.registers = k.machine.registers →
      (∀ j < (regs k 5).toNat, m.virtualByte (unsigned (regs k 4) + j) =
        k.machine.virtualByte (unsigned (regs k 4) + j)) →
      ∃ k'', exceptionHandler svc env .syscallException { k with machine := m } = .ok ((), k'') ∧
        k''.console = k'.console ∧ regs k'' 2 = regs k' 2

theorem scWrite_console_ok (hid : regs k 6 = 1) (h : scWrite env k = .ok ((), k')) :
    ∃ out, k'.console = k.console ++ out ∧ regs k' 2 < out.length := by
  have hminus : ∀ {k₁ : Kernel κ}, k₁.console = k.console → ret (-1) k₁ = .ok ((), k') →
      ∃ out, k'.console = k.console ++ out ∧ regs k' 2 < out.length := by
    intro k₁ hk₁ hret
    cases hret
    exact ⟨[], by rw [List.append_nil]; exact hk₁, show (-1 : Int) < 0 by decide⟩
  rw [scWrite, bind_of_ok (readRegister_eq 4 k), bind_of_ok (readRegister_eq 5 k),
    bind_of_ok (readRegister_eq 6 k), hid, if_neg (by decide)] at h
  obtain ⟨j, -, ⟨-, h⟩ | ⟨f, -, h⟩⟩ := openfileAt_bind_ok h
  · exact hminus rfl h
  · rcases ite_ok h with ⟨-, h⟩ | ⟨-, h⟩
    · exact hminus rfl h
    · obtain ⟨p, k₁, hpos, h⟩ := bind_ok h
      obtain ⟨b, k₂, hcopy, h⟩ := bind_ok h
      rw [if_pos rfl] at h
      obtain ⟨_, k₃, hover, h⟩ := bind_ok h
      cases hover
      obtain ⟨r, k₄, hput, h⟩ := bind_ok h
      obtain ⟨out, hout, hr⟩ := putString_ok hput
      have hsame : k₂.console = k.console :=
        (keeps_console_user2System _ _ _ _ _ _ hcopy).trans
          (keeps_console_getCurrentPos _ _ _ _ hpos)
      cases h
      refine ⟨out, ?_, ?_⟩
      · rw [← hsame]
        exact hout
      · change r < out.length
        have hle := Nat.mod_le out.length 255
        omega

/-- The count that comes back is never the number of characters put. -/
theorem write_console_never (svc : Services κ) (env : Env) (hcall : regs k 2 = 8)
    (hid : regs k 6 = 1) : ¬PutsString svc env k := by
  rintro ⟨k', hk', hconsole, hr, -⟩
  have hwrite : scWrite env k = .ok ((), k') := by
    rw [exceptionHandler, bind_of_ok (readRegister_eq 2 k), if_pos rfl, hcall] at hk'
    exact hk'
  obtain ⟨out, hout, hlt⟩ := scWrite_console_ok hid hwrite
  have heq : out = cString (shift k.machine.virtualByte (unsigned (regs k 4)))
      (regs k 5).toNat := List.append_cancel_left (hout.symm.trans hconsole)
  rw [hr, heq] at hlt
  exact lt_irrefl _ hlt

def writeAB : Kernel Unit :=
  { oneFile (.ofMode 5 0) (.file 0 0) [] [97, 98] 8 0 2 1 with
    fileSystem := ⟨fun i => if i.val = 1 then some (.ofMode 5 0) else none, fun _ => []⟩ }

/-- The two characters are put, and 1 comes back. -/
theorem write_ab_returns_one : ¬PutsString zeroServices hundred writeAB := by
  rintro ⟨k', hk', -, hr, -⟩
  have heval : ((exceptionHandler zeroServices hundred .syscallException writeAB).toOption.map
      fun r => (regs r.2 2, r.2.console)) = some (1, [97, 98]) := by
    decide +kernel
  rw [hk'] at heval
  have hr1 : regs k' 2 = 1 := congrArg Prod.fst (Option.some.inj heval)
  rw [hr1] at hr
  revert hr
  decide

theorem write_console_never_ab : regs writeAB 6 = 1 ∧ ¬PutsString zeroServices hundred writeAB :=
  ⟨rfl, write_console_never zeroServices hundred rfl rfl⟩

def inputLine (k : Kernel κ) : List UInt8 := k.input.takeWhile (· ≠ newline)

/-- `ReadString` keeps to its two buffers and leaves the line, cut to the length, as a string. -/
def ReadsString (svc : Services κ) (env : Env) (k : Kernel κ) (buf length : ℕ) : Prop :=
  ∃ k', exceptionHandler svc env .syscallException k = .ok ((), k') ∧ k'.overrun = false ∧
    (∀ a < k.machine.spaceSize, a < buf ∨ buf + length ≤ a →
      k'.machine.virtualByte a = k.machine.virtualByte a) ∧
    buf + ((inputLine k).take (length - 1)).length < k.machine.spaceSize ∧
    (∀ j < ((inputLine k).take (length - 1)).length,
      k'.machine.virtualByte (buf + j) = (inputLine k).getD j 0) ∧
    k'.machine.virtualByte (buf + ((inputLine k).take (length - 1)).length) = 0

theorem readUntilNewline_eq (h : newline ∈ k.input) :
    ∃ rest, readUntilNewline k = if eof ∈ inputLine k then .error .away
      else .ok (inputLine k, { k with input := rest }) := by
  have hlt : (inputLine k).length < k.input.length := by
    by_contra hge
    have hall : inputLine k = k.input :=
      (List.takeWhile_prefix _).eq_of_length (le_antisymm
        (List.takeWhile_prefix _).length_le (not_lt.mp hge))
    have hne := List.mem_takeWhile_imp (hall.symm ▸ h : newline ∈ inputLine k)
    simp at hne
  cases hd : k.input.drop (inputLine k).length with
  | nil =>
    rw [List.drop_eq_nil_iff] at hd
    omega
  | cons c rest =>
    refine ⟨rest, ?_⟩
    unfold readUntilNewline
    dsimp only
    rw [show k.input.takeWhile (fun x => decide (x ≠ newline)) = inputLine k from rfl, hd]

theorem keeps_overrun_system2User (virtAddr len : Int) (buffer : Buffer) :
    Keeps Kernel.overrun (system2User virtAddr len buffer : Sys κ Int) :=
  system2User_keeps (writeMem_keeps fun _ _ => rfl) virtAddr len buffer

theorem readUntilNewline_returns (h : newline ∈ k.input) (heof : eof ∉ inputLine k) :
    ∃ rest, readUntilNewline k = .ok (inputLine k, { k with input := rest }) := by
  obtain ⟨rest, hline⟩ := readUntilNewline_eq h
  exact ⟨rest, hline.trans (if_neg heof)⟩

theorem newBuffer_length (env : Env) (hlen : 1 ≤ regs k 5) :
    newBuffer (regs k 5) env.junk k = .ok (⟨(regs k 5).toNat, env.junk⟩, k) := by
  rw [newBuffer, if_neg (by omega)]
  rfl

/-- `ReadString` comes back from a line without `EOF` only. -/
theorem scReadString_eof {u : Unit} (h : scReadString env k = .ok (u, k'))
    (hlen : 1 ≤ regs k 5) (hnewline : newline ∈ k.input) : eof ∉ inputLine k := by
  intro heof
  obtain ⟨rest, hline⟩ := readUntilNewline_eq hnewline
  rw [if_pos heof] at hline
  rw [scReadString, bind_of_ok (readRegister_eq 4 k), bind_of_ok (readRegister_eq 5 k),
    bind_of_ok (newBuffer_length env hlen), bind_of_error hline] at h
  cases h

/-- A line that does not fit with its NUL is stored past the end of the kernel's buffer. -/
theorem scReadString_overrun {u : Unit} (h : scReadString env k = .ok (u, k'))
    (hlen : 1 ≤ regs k 5) (hnewline : newline ∈ k.input)
    (hlong : (regs k 5).toNat ≤ (inputLine k).length) : k'.overrun = true := by
  obtain ⟨rest, hline⟩ := readUntilNewline_returns hnewline (scReadString_eof h hlen hnewline)
  rw [scReadString, bind_of_ok (readRegister_eq 4 k), bind_of_ok (readRegister_eq 5 k),
    bind_of_ok (newBuffer_length env hlen), bind_of_ok hline,
    bind_of_ok (show setOverrun _ _ = .ok _ from rfl)] at h
  obtain ⟨r, k₁, hcopy, h⟩ := bind_ok h
  have hkeep := keeps_overrun_system2User _ _ _ _ _ _ hcopy
  cases h
  change k₁.overrun = true
  rw [hkeep]
  simp [hlong]

theorem scReadString_returns (env : Env) (hp : k.machine.Paged) (hlen : 1 ≤ regs k 5)
    (hnewline : newline ∈ k.input) (heof : eof ∉ inputLine k)
    (hin : unsigned (regs k 4) + (inputLine k).length ≤ k.machine.spaceSize) :
    ∃ k', scReadString env k = .ok ((), k') ∧
      k'.overrun = (k.overrun || decide ((regs k 5).toNat ≤ (inputLine k).length)) ∧
      ∀ a < k.machine.spaceSize, k'.machine.virtualByte a =
        copyString (fun j => (inputLine k).getD j 0) k.machine.virtualByte (unsigned (regs k 4))
          (inputLine k).length a := by
  obtain ⟨rest, hline⟩ := readUntilNewline_returns hnewline heof
  have hstore : ∀ j < (inputLine k).length,
      ((⟨(regs k 5).toNat, env.junk⟩ : Buffer).store (inputLine k ++ [0])).byte j =
        (inputLine k).getD j 0 := by
    intro j hj
    simp only [Buffer.store]
    rw [List.getD_append _ _ _ _ hj, List.getD_eq_getElem _ _ hj, List.getD_eq_getElem _ _ hj]
  obtain ⟨r, m', -, -, hcopy, hbytes⟩ := system2User_paged (k := { k with
    input := rest
    overrun := k.overrun || decide ((regs k 5).toNat ≤ (inputLine k).length) })
    ((⟨(regs k 5).toNat, env.junk⟩ : Buffer).store (inputLine k ++ [0])) (inputLine k).length hp hin
  rw [copyString_src_congr hstore] at hbytes
  rw [scReadString, bind_of_ok (readRegister_eq 4 k), bind_of_ok (readRegister_eq 5 k),
    bind_of_ok (newBuffer_length env hlen), bind_of_ok hline,
    bind_of_ok (show setOverrun _ _ = .ok _ from rfl), bind_of_ok hcopy]
  exact ⟨_, rfl, rfl, hbytes⟩

/-- The line is one that comes to its end and fits, and its terminating NUL is there before. -/
theorem readString_iff (svc : Services κ) (env : Env) (hp : k.machine.Paged)
    (hcall : regs k 2 = 44) (hlen : 1 ≤ regs k 5) (hover : k.overrun = false)
    (hnewline : newline ∈ k.input) (hnul : 0 ∉ inputLine k) :
    ReadsString svc env k (unsigned (regs k 4)) (regs k 5).toNat ↔
      eof ∉ inputLine k ∧ ((inputLine k).length : Int) < regs k 5 ∧
        unsigned (regs k 4) + (inputLine k).length < k.machine.spaceSize ∧
        k.machine.virtualByte (unsigned (regs k 4) + (inputLine k).length) = 0 := by
  have hhandler : exceptionHandler svc env .syscallException k = scReadString env k := by
    rw [exceptionHandler, bind_of_ok (readRegister_eq 2 k), if_pos rfl, hcall]
    rfl
  -- a line without a NUL is copied as a whole
  have hcopied : ∀ j < (inputLine k).length, ¬BehindNul (fun i => (inputLine k).getD i 0) j := by
    rintro j hj ⟨i, hi, h0⟩
    have hlt : i < (inputLine k).length := by omega
    simp only [List.getD_eq_getElem _ _ hlt] at h0
    exact hnul (h0 ▸ List.getElem_mem hlt)
  constructor
  · rintro ⟨k', hk', hover', -, hin, -, hzero⟩
    rw [hhandler] at hk'
    have heof := scReadString_eof hk' hlen hnewline
    have hfit : (inputLine k).length < (regs k 5).toNat := by
      by_contra hge
      cases (scReadString_overrun hk' hlen hnewline (not_lt.mp hge)).symm.trans hover'
    have htake : (inputLine k).take ((regs k 5).toNat - 1) = inputLine k :=
      List.take_of_length_le (by omega)
    rw [htake] at hin hzero
    obtain ⟨k'', hk'', -, hbytes⟩ := scReadString_returns env hp hlen hnewline heof hin.le
    cases hk''.symm.trans hk'
    rw [hbytes _ hin, copyString, if_neg (by omega)] at hzero
    exact ⟨heof, by omega, hin, hzero⟩
  · rintro ⟨heof, hfit, hin, hzero⟩
    obtain ⟨k', hk', hover', hbytes⟩ := scReadString_returns env hp hlen hnewline heof hin.le
    have htake : (inputLine k).take ((regs k 5).toNat - 1) = inputLine k :=
      List.take_of_length_le (by omega)
    refine ⟨k', hhandler.trans hk', ?_, ?_, ?_, ?_, ?_⟩
    · rw [hover', hover]
      simp only [Bool.false_or, decide_eq_false_iff_not]
      omega
    · intro a ha hout
      rw [hbytes a ha, copyString, if_neg (by omega)]
    · rw [htake]
      exact hin
    · rw [htake]
      intro j hj
      rw [hbytes _ (by omega), copyString, Nat.add_sub_cancel_left,
        if_pos ⟨by omega, by omega, hcopied j hj⟩]
    · rw [htake, hbytes _ hin, copyString, if_neg (by omega)]
      exact hzero

/-- `ReadString(0, 4)` while "hi" and the end of the line are typed. -/
def readHi (memory : List UInt8) (length : Int) : Kernel Unit :=
  { oneFile (.ofMode 5 0) (.file 0 0) [] memory 44 0 length 0 with input := [104, 105, newline] }

theorem readString_hi : ReadsString zeroServices hundred (readHi [] 4) 0 4 := by
  have hp : (readHi [] 4).machine.Paged := @paged_oneFile (.ofMode 5 0) (.file 0 0) [] [] 44 0 4 0
  exact (readString_iff zeroServices hundred hp rfl (by decide) rfl (by decide) (by decide)).mpr
    (by decide)

/-- No NUL is put behind the two characters. -/
theorem readString_unterminated :
    ¬ReadsString zeroServices hundred (readHi [120, 120, 120, 120] 4) 0 4 := by
  rintro ⟨k', hk', -, -, -, -, hzero⟩
  have heval : ((exceptionHandler zeroServices hundred .syscallException
      (readHi [120, 120, 120, 120] 4)).toOption.map fun r => r.2.machine.virtualByte 2) =
      some 120 := by
    decide +kernel
  rw [hk'] at heval
  cases hzero.symm.trans (Option.some.inj heval)

def countDigits : ℕ → Int → ℕ
  | 0, _ => 0
  | fuel + 1, temp => if temp > 0 then countDigits fuel (temp / 10) + 1 else 0

def fillDigits (buffer : Int → UInt8) (number i : Int) : ℕ → (Int → UInt8) × List Int
  | 0 => (buffer, [])
  | n + 1 =>
    let r := fillDigits (Function.update buffer i (UInt8.ofNat (number % 10 + 48).toNat))
      (number / 10) (i - 1) n
    (r.1, i :: r.2)

/-- The characters that are put for a number, and the indices of the buffer that are used on the
way.  An `int` has at most ten digits. -/
def printInt (junk : Int → UInt8) (number : Int) : List UInt8 × List Int :=
  if number = 0 then ([48], [])
  else
    let indexStart : ℕ := if number < 0 then 1 else 0
    let number := if number < 0 then wrap (-number) else number
    let count := countDigits 10 number
    let r := fillDigits junk number (count - 1 + indexStart) count
    if indexStart = 1 then
      let buffer := Function.update (Function.update r.1 0 45) (count + 1) 0
      ((List.range (count + 1)).map fun i : ℕ => buffer i,
        r.2 ++ [0, (count : Int) + 1] ++ (List.range (count + 1)).map fun i : ℕ => (i : Int))
    else
      let buffer := Function.update r.1 count 0
      ((List.range count).map fun i : ℕ => buffer i,
        r.2 ++ [(count : Int)] ++ (List.range count).map fun i : ℕ => (i : Int))

theorem countDigits_le (fuel : ℕ) (temp : Int) : countDigits fuel temp ≤ fuel := by
  induction fuel generalizing temp with
  | zero => exact le_rfl
  | succ fuel ih =>
    unfold countDigits
    split_ifs
    · exact Nat.succ_le_succ (ih _)
    · exact Nat.zero_le _

theorem fillDigits_above {buffer : Int → UInt8} {number i j : Int} {n : ℕ} (h : i < j) :
    (fillDigits buffer number i n).1 j = buffer j := by
  induction n generalizing buffer number i with
  | zero => rfl
  | succ n ih =>
    unfold fillDigits
    dsimp only
    rw [ih (by omega), Function.update_of_ne (by omega)]

theorem fillDigits_used {buffer : Int → UInt8} {number i : Int} {n : ℕ} :
    ∀ j ∈ (fillDigits buffer number i n).2, i - n < j ∧ j ≤ i := by
  induction n generalizing buffer number i with
  | zero =>
    intro j hj
    cases hj
  | succ n ih =>
    intro j hj
    unfold fillDigits at hj
    rcases List.mem_cons.mp hj with rfl | hj
    · omega
    · have := ih j hj
      omega

theorem fillDigits_countDigits (buffer : Int → UInt8) (number start : Int) (fuel : ℕ) :
    (List.range (countDigits fuel number)).map (fun t : ℕ =>
      (fillDigits buffer number (start + countDigits fuel number - 1)
        (countDigits fuel number)).1 (start + t)) = digits fuel number := by
  induction fuel generalizing buffer number with
  | zero => rfl
  | succ fuel ih =>
    unfold countDigits digits
    split_ifs with hpos
    · have hdigit : UInt8.ofNat (number % 10 + 48).toNat =
          UInt8.ofNat (48 + (number % 10).toNat) := by
        congr 1
        omega
      have hstart : start + ((countDigits fuel (number / 10) + 1 : ℕ) : Int) - 1 =
          start + countDigits fuel (number / 10) := by
        push_cast
        omega
      rw [List.range_succ, List.map_append, hstart]
      unfold fillDigits
      dsimp only
      rw [ih, List.map_singleton, fillDigits_above (by omega), Function.update_self, hdigit]
    · rfl

theorem printInt_chars (junk : Int → UInt8) (number : Int) :
    (printInt junk number).1 = decimal number := by
  unfold printInt decimal
  by_cases h0 : number = 0
  · rw [if_pos h0, if_pos h0]
  rw [if_neg h0, if_neg h0]
  by_cases hneg : number < 0
  · simp only [if_pos hneg, if_true, List.range_succ_eq_map, List.map_cons, List.map_map]
    rw [← fillDigits_countDigits junk (wrap (-number)) 1 10]
    congr 1
    apply List.map_congr_left
    intro t ht
    have htlt := List.mem_range.mp ht
    have hlow : (countDigits 10 (wrap (-number)) : Int) - 1 + ((1 : ℕ) : Int) =
        1 + countDigits 10 (wrap (-number)) - 1 := by
      push_cast
      omega
    have hindex : ((Nat.succ t : ℕ) : Int) = 1 + t := by
      push_cast
      omega
    simp only [Function.comp_apply, hindex, hlow]
    rw [Function.update_of_ne (by omega), Function.update_of_ne (by omega)]
  · simp only [if_neg hneg, zero_ne_one, if_false]
    rw [← fillDigits_countDigits junk number 0 10]
    apply List.map_congr_left
    intro t ht
    have htlt := List.mem_range.mp ht
    have hlow : (countDigits 10 number : Int) - 1 + ((0 : ℕ) : Int) =
        0 + countDigits 10 number - 1 := by
      push_cast
      omega
    rw [hlow, zero_add (t : Int), Function.update_of_ne (by omega)]

theorem printInt_used (junk : Int → UInt8) (number : Int) :
    ∀ i ∈ (printInt junk number).2, 0 ≤ i ∧ i < 12 := by
  unfold printInt
  by_cases h0 : number = 0
  · rw [if_pos h0]
    intro i hi
    cases hi
  rw [if_neg h0]
  by_cases hneg : number < 0
  · have hle := countDigits_le 10 (wrap (-number))
    simp only [if_pos hneg, if_true, List.mem_append, List.mem_map, List.mem_range, List.mem_cons,
      List.not_mem_nil, or_false]
    rintro i ((hi | rfl | rfl) | ⟨j, hj, rfl⟩)
    · have := fillDigits_used i hi
      omega
    · omega
    · omega
    · omega
  · have hle := countDigits_le 10 number
    simp only [if_neg hneg, zero_ne_one, if_false, List.mem_append, List.mem_map, List.mem_range,
      List.mem_singleton]
    rintro i ((hi | rfl) | ⟨j, hj, rfl⟩)
    · have := fillDigits_used i hi
      omega
    · omega
    · omega

/-- The characters `s` are the decimal number `n`: a sign for a negative one, then digits
without a leading zero. -/
def Canonical (s : List UInt8) (n : Int) : Prop :=
  ∃ ds : List ℕ, (∀ d ∈ ds, d < 10) ∧ ds ≠ [] ∧ (ds.head? = some 0 → ds = [0]) ∧
    n.natAbs = ds.foldl (fun v d => 10 * v + d) 0 ∧
    s = (if n < 0 then [45] else []) ++ ds.map fun d => UInt8.ofNat (48 + d)

theorem digits_eq {fuel : ℕ} {number : Int} (h0 : 0 ≤ number) (h : number < 10 ^ fuel) :
    digits fuel number =
      (Nat.digits 10 number.toNat).reverse.map fun d => UInt8.ofNat (48 + d) := by
  induction fuel generalizing number with
  | zero =>
    obtain rfl : number = 0 := by
      rw [pow_zero] at h
      omega
    rfl
  | succ fuel ih =>
    unfold digits
    by_cases hpos : number > 0
    · rw [if_pos hpos, Nat.digits_def' (by decide) (by omega), List.reverse_cons, List.map_append,
        ih (by omega) (by rw [pow_succ] at h; omega),
        show (number / 10).toNat = number.toNat / 10 by omega,
        show (number % 10).toNat = number.toNat % 10 by omega]
      rfl
    · rw [if_neg hpos, show number.toNat = 0 by omega]
      rfl

theorem digits_canonical {m : ℕ} (hm : m ≠ 0) :
    (∀ d ∈ (Nat.digits 10 m).reverse, d < 10) ∧ (Nat.digits 10 m).reverse ≠ [] ∧
      (Nat.digits 10 m).reverse.head? ≠ some 0 ∧
      m = (Nat.digits 10 m).reverse.foldl (fun v d => 10 * v + d) 0 := by
  have hne : Nat.digits 10 m ≠ [] := Nat.digits_ne_nil_iff_ne_zero.mpr hm
  refine ⟨?_, ?_, ?_, ?_⟩
  · intro d hd
    exact Nat.digits_lt_base (by decide) (List.mem_reverse.mp hd)
  · simpa using hne
  · rw [List.head?_reverse, List.getLast?_eq_some_getLast hne]
    intro h
    exact Nat.getLast_digit_ne_zero 10 hm (Option.some.inj h)
  · rw [List.foldl_reverse]
    have hof := Nat.ofDigits_digits 10 m
    rw [Nat.ofDigits_eq_foldr] at hof
    simpa [add_comm] using hof.symm

theorem decimal_canonical {n : Int} (hmin : intMin < n) (hmax : n ≤ intMax) :
    Canonical (decimal n) n := by
  unfold intMin at hmin
  unfold intMax at hmax
  by_cases h0 : n = 0
  · subst h0
    exact ⟨[0], by decide, by decide, fun _ => rfl, rfl, rfl⟩
  obtain ⟨hlt, hne, hhead, hval⟩ := digits_canonical (show n.natAbs ≠ 0 by omega)
  refine ⟨_, hlt, hne, fun h => absurd h hhead, hval, ?_⟩
  rw [decimal, if_neg h0]
  by_cases hneg : n < 0
  · have hwrap : wrap (-n) = -n := wrap_of_range (by omega) (by omega)
    rw [if_pos hneg, if_pos hneg, hwrap, digits_eq (by omega) (by omega),
      show (-n).toNat = n.natAbs by omega]
    rfl
  · rw [if_neg hneg, if_neg hneg, digits_eq (by omega) (by omega),
      show n.toNat = n.natAbs by omega]
    rfl

/-- Only the sign is put for the smallest number. -/
theorem decimal_intMin : decimal intMin = [45] := by decide

theorem not_canonical_minus (n : Int) : ¬Canonical [45] n := by
  rintro ⟨ds, hlt, hne, -, -, hs⟩
  cases ds with
  | nil => exact hne rfl
  | cons d ds =>
    split_ifs at hs
    · simp at hs
    · simp only [List.nil_append, List.map_cons, List.cons.injEq] at hs
      have hd := hlt d List.mem_cons_self
      have h45 : 45 = (48 + d) % 2 ^ 8 := (congrArg UInt8.toNat hs.1).trans UInt8.toNat_ofNat'
      omega

/-- The characters that `PrintInt` puts come from its buffer, are the number in decimal, and
the buffer is used below index 12 only. -/
def PrintsDecimal (svc : Services κ) (env : Env) (k : Kernel κ) : Prop :=
  ∃ k', exceptionHandler svc env .syscallException k = .ok ((), k') ∧
    k'.console = k.console ++ (printInt (fun i => env.junk i.toNat) (regs k 4)).1 ∧
    Canonical (printInt (fun i => env.junk i.toNat) (regs k 4)).1 (regs k 4) ∧
    ∀ i ∈ (printInt (fun i => env.junk i.toNat) (regs k 4)).2, 0 ≤ i ∧ i < 12

theorem printBuffer_returns (chars : List UInt8) (k : Kernel κ) :
    printBuffer chars k = .ok ((), { k with console := k.console ++ chars }) := by
  induction chars generalizing k with
  | nil =>
    rw [List.append_nil]
    rfl
  | cons c rest ih =>
    rw [printBuffer, bind_of_ok (show putChar c k = .ok ((), _) from rfl), ih]
    simp only [List.append_assoc, List.singleton_append]

theorem scPrintInt_returns (k : Kernel κ) : ∃ k', scPrintInt k = .ok ((), k') ∧
    k'.console = k.console ++ decimal (regs k 4) := by
  rw [scPrintInt, bind_of_ok (readRegister_eq 4 k), bind_of_ok (printBuffer_returns _ k)]
  exact ⟨_, rfl, rfl⟩

/-- `PrintInt` is right for every number but the smallest. -/
theorem printInt_decimal_iff (svc : Services κ) (env : Env) (hcall : regs k 2 = 45)
    (hmin : intMin ≤ regs k 4) (hmax : regs k 4 ≤ intMax) :
    PrintsDecimal svc env k ↔ regs k 4 ≠ -2147483648 := by
  have hhandler : exceptionHandler svc env .syscallException k = scPrintInt k := by
    rw [exceptionHandler, bind_of_ok (readRegister_eq 2 k), if_pos rfl, hcall]
    rfl
  obtain ⟨k', hk', hconsole⟩ := scPrintInt_returns k
  rw [PrintsDecimal, hhandler, printInt_chars]
  constructor
  · rintro ⟨-, -, -, hcanon, -⟩ heq
    rw [heq, show decimal (-2147483648) = [45] from decimal_intMin] at hcanon
    exact not_canonical_minus _ hcanon
  · intro hne
    have hlt : intMin < regs k 4 := by
      unfold intMin at hmin ⊢
      omega
    exact ⟨k', hk', hconsole, decimal_canonical hlt hmax, printInt_used _ _⟩

def printKernel (number : Int) : Kernel Unit :=
  oneFile (.ofMode 5 0) (.file 0 0) [] [] 45 number 0 0

theorem printInt_decimal_1024 : PrintsDecimal zeroServices noEnv (printKernel (-1024)) := by
  have hcall : regs (printKernel (-1024)) 2 = 45 := rfl
  exact (printInt_decimal_iff zeroServices noEnv hcall (by decide) (by decide)).mpr (by decide)

/-- The smallest number is printed as a sign without digits. -/
theorem printInt_smallest : ¬PrintsDecimal zeroServices noEnv (printKernel (-2147483648)) := by
  rintro ⟨k', hk', hconsole, hcanon, -⟩
  rw [printInt_chars] at hcanon
  exact not_canonical_minus _ hcanon

end Sys
end Nachos
