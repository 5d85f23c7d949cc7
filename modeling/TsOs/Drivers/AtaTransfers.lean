import TsOs.Drivers.Ata

/-!
# Transfers of the disk driver

For a disk that answers in time, however long it is busy, the driver reads and writes the sectors
that it is asked for, and a request beyond the last sector ends in a panic.
-/

namespace TsOs.Ata
open ByteMemory AtaDisk AtaDisk.Device
open Fat (Stop Buf Disk)

variable {fuel : Nat} {d e r : Device} {t : Timing} {capacity : Nat} {regs : Registers} {disk medium : Mem}

/-! ## Polls -/

theorem inb_status (d : Device) : inb (ataPrMstIoBase + ataStatus) d = (.ok d.readStatus.1, d.readStatus.2) := rfl

theorem inb_altStatus (d : Device) :
    inb (ataPrMstCtrlBase + ataAltStatus) d = (.ok d.readStatus.1, d.readStatus.2) := rfl

theorem and_statusBsy : ∀ s < 0x80, s &&& ataStatusBsy = 0 := by decide

/-- The check of `ata_poll_bsy_drq` has `|` and `~` where it can not fail. -/
theorem drqCheck : ∀ s ∈ [0x40, 0x48, 0x80], ∀ q ∈ [0, 1],
    ((q <<< 3) &&& s) ||| (not32 s &&& not32 (q <<< 3)) ≠ 0 := by decide

theorem pollBsyLoop_pending (h : Pending (fuel + 1) r d) : pollBsyLoop (fuel + 1) d = (.ok (), r) := by
  induction fuel generalizing d with
  | zero =>
      rw [pollBsyLoop, AtaM.bind_ok (inb_status d)]
      obtain hread | ⟨-, hpos, -⟩ := h.readStatus
      · rw [hread, if_neg (by rw [and_statusBsy _ h.result_settled.status_lt]; simp)]
        rfl
      · exact absurd hpos (Nat.lt_irrefl 0)
  | succ fuel ih =>
      rw [pollBsyLoop, AtaM.bind_ok (inb_status d)]
      obtain hread | ⟨hbusy, -, hread⟩ := h.readStatus
      · rw [hread, if_neg (by rw [and_statusBsy _ h.result_settled.status_lt]; simp)]
        rfl
      · rw [hbusy, if_pos (by decide)]
        exact ih hread

/-- The status of a disk that is not busy, without an error. -/
theorem status_mem (h : Settled d) (herror : d.error = false) : d.status ∈ [0x40, 0x48] := by
  rw [status]
  split
  next => simp [herror]
  next hbusy => exact absurd hbusy (h.phase _ _)
  next => simp
  next => simp

theorem status_drdy : ∀ s ∈ [0x40, 0x48], s &&& ataStatusDrdy ≠ 0 := by decide

theorem status_noError : ∀ s ∈ [0x40, 0x48, 0x80], ¬(s &&& ataStatusErr ≠ 0 ∨ s &&& ataStatusDf ≠ 0) := by decide

/-- What the second read of the status in a poll decides. -/
theorem ataPollBsyDrq_of_status {d₁ d₂ : Device} {s q : Nat} (hloop : pollBsyLoop (fuel + 1) d = (.ok (), d₁))
    (hread : d₁.readStatus = (s, d₂)) (hs : s ∈ [0x40, 0x48, 0x80]) (hq : q ∈ [0, 1]) :
    ataPollBsyDrq (fuel + 1) q d = (.ok s, d₂) := by
  have hpoll : ataPollBsy (fuel + 1) d = (.ok s, d₂) := by
    rw [ataPollBsy, AtaM.bind_ok hloop, AtaM.bind_ok (inb_altStatus d₁), hread, if_neg (status_noError s hs)]
    rfl
  rw [ataPollBsyDrq, AtaM.bind_ok hpoll, if_pos (drqCheck s hs q hq)]
  rfl

theorem ataPollBsyDrq_of_error {d₁ d₂ : Device} (hloop : pollBsyLoop (fuel + 1) d = (.ok (), d₁))
    (hread : d₁.readStatus = (0x41, d₂)) (q : Nat) : ataPollBsyDrq (fuel + 1) q d = (.error .panic, d₂) := by
  have hpoll : ataPollBsy (fuel + 1) d = (.error .panic, d₂) := by
    rw [ataPollBsy, AtaM.bind_ok hloop, AtaM.bind_ok (inb_altStatus d₁), hread]
    exact congrFun (if_pos (by decide : 0x41 &&& ataStatusErr ≠ 0 ∨ 0x41 &&& ataStatusDf ≠ 0)) d₂
  rw [ataPollBsyDrq, AtaM.bind_error hpoll]

theorem status_mem_polled (h : Settled d) (herror : d.error = false) : d.status ∈ [0x40, 0x48, 0x80] := by
  have hmem := status_mem h herror
  simp only [List.mem_cons, List.not_mem_nil, or_false] at hmem ⊢
  tauto

theorem status_error (herror : d.error = true) (hidle : d.phase = .idle) : d.status = 0x41 := by
  rw [status, hidle, herror]
  rfl

theorem ataPollBsyDrq_pending (h : Pending (fuel + 1) r d) (herror : r.error = false) {q : Nat} (hq : q ∈ [0, 1]) :
    ataPollBsyDrq (fuel + 1) q d = (.ok r.status, r) :=
  ataPollBsyDrq_of_status (pollBsyLoop_pending h) h.result_settled.readStatus
    (status_mem_polled h.result_settled herror) hq

theorem ataPollBsyDrq_error (h : Pending (fuel + 1) r d) (herror : r.error = true) (hidle : r.phase = .idle) (q : Nat) :
    ataPollBsyDrq (fuel + 1) q d = (.error .panic, r) := by
  refine ataPollBsyDrq_of_error (pollBsyLoop_pending h) ?_ q
  rw [h.result_settled.readStatus, status_error herror hidle]

/-- Where the status is an old one for up to two reads, a poll may end too early, but the next one does not. -/
theorem ataPollBsyDrq_lagging {l : Nat} (h : Lagging (fuel + 1) l r d) (hl : l ≤ 2) (hshown : d.shown = 0x48)
    (hidle : r.error = true → r.phase = .idle) :
    (∃ s d', ataPollBsyDrq (fuel + 1) 1 d = (.ok s, d') ∧ Pending (fuel + 1) r d') ∨
      r.error = true ∧ ataPollBsyDrq (fuel + 1) 1 d = (.error .panic, r) := by
  have hq : 1 ∈ [0, 1] := by simp
  cases l with
  | zero =>
      cases herror : r.error with
      | false => exact .inl ⟨_, _, ataPollBsyDrq_pending h.pending herror hq, h.pending.result⟩
      | true => exact .inr ⟨rfl, ataPollBsyDrq_error h.pending herror (hidle herror) 1⟩
  | succ l =>
      obtain ⟨hfst, hkept⟩ := h.readStatus_shown
      have hloop : pollBsyLoop (fuel + 1) d = (.ok (), d.readStatus.2) := by
        rw [pollBsyLoop, AtaM.bind_ok (inb_status d), hfst, hshown, if_neg (by decide)]
        rfl
      have hnext := h.readStatus
      generalize d.readStatus.2 = d₁ at hloop hnext hkept
      cases l with
      | zero =>
          obtain hread | ⟨hbusy, -, hread⟩ := hnext.pending.readStatus
          · cases herror : r.error with
            | false =>
                have hs := status_mem_polled hnext.pending.result_settled herror
                exact .inl ⟨_, _, ataPollBsyDrq_of_status hloop hread hs hq, hnext.pending.result⟩
            | true =>
                rw [status_error herror (hidle herror)] at hread
                exact .inr ⟨rfl, ataPollBsyDrq_of_error hloop hread 1⟩
          · exact .inl ⟨_, _, ataPollBsyDrq_of_status hloop (Prod.ext hbusy rfl) (by simp) hq,
              hread.mono (Nat.le_succ _)⟩
      | succ l =>
          obtain rfl : l = 0 := by omega
          obtain ⟨hsnd, -⟩ := hnext.readStatus_shown
          have hread : d₁.readStatus = (0x48, d₁.readStatus.2) := Prod.ext (hsnd.trans (hkept.trans hshown)) rfl
          exact .inl ⟨_, _, ataPollBsyDrq_of_status hloop hread (by simp) hq, hnext.readStatus.pending⟩

theorem ataPollDrdy_settled (h : Settled d) (herror : d.error = false) : ataPollDrdy (fuel + 1) d = (.ok (), d) := by
  have hdrdy := status_drdy _ (status_mem h herror)
  rw [ataPollDrdy, AtaM.bind_ok (inb_status d), h.readStatus, if_neg hdrdy]
  rfl

theorem ataWait_settle (d : Device) : ataWait d = (.ok (), settle 4 d) := rfl

/-! ## Commands -/

/-- A disk that answers in time. How long its status may be an old one depends on how often the driver reads the
status before it relies on it. -/
structure Prompt (fuel : Nat) (t : Timing) : Prop where
  delay : ∀ k, t.delay k ≤ fuel
  commandLag : ∀ k, t.commandLag k ≤ 4
  readLag : ∀ k, t.readLag k ≤ 2
  writeLag : ∀ k, t.writeLag k ≤ 1

/-- A disk without a command. -/
structure Ready (t : Timing) (capacity : Nat) (regs : Registers) (disk medium : Mem) (d : Device) : Prop where
  holds : Holds t capacity regs disk medium d
  idle : d.phase = .idle

theorem Ready.settled (h : Ready t capacity regs disk medium d) : Settled d :=
  ⟨h.holds.lag, fun n w => by rw [h.idle]; exact Phase.noConfusion⟩

theorem Ready.withRegs (h : Ready t capacity regs disk medium d) (regs' : Registers) :
    Ready t capacity regs' disk medium { d with regs := regs' } :=
  ⟨⟨h.holds.timing, h.holds.capacity, h.holds.disk, h.holds.medium, h.holds.error, h.holds.lag, rfl⟩, h.idle⟩

/-- After a command and `ata_wait` the disk is at work. -/
theorem Ready.command_pending (h : Ready t capacity regs disk medium d) (hp : Prompt fuel t) (w : Work) :
    Pending (fuel + 1) (d.base.finish w) (settle 4 (d.start w (d.timing.commandLag d.periods))) := by
  have hdelay := hp.delay d.periods
  have hlag := hp.commandLag d.periods
  rw [← h.holds.timing] at hdelay hlag
  exact (start_lagging w _ (by omega)).settle hlag

/-- The registers with a number of sectors and a first sector. -/
def issued (lbaStart secNum : Nat) : Registers where
  secCount := secNum % 2 ^ 8
  lba0 := (lbaStart &&& 0xFF) % 2 ^ 8
  lba1 := (lbaStart >>> 8 &&& 0xFF) % 2 ^ 8
  lba2 := (lbaStart >>> 16 &&& 0xFF) % 2 ^ 8
  devSel := (0xE0 ||| 0 <<< 4 ||| (lbaStart >>> 24 &&& 0x0F)) % 2 ^ 8
  devCtrl := 2

theorem devSel_eq : ∀ x < 16, (0xE0 ||| 0 <<< 4 ||| x) % 2 ^ 8 = 0xE0 + x := by decide

theorem issued_devSel (lbaStart secNum : Nat) : (issued lbaStart secNum).devSel = 0xE0 + lbaStart / 2 ^ 24 % 16 := by
  have hmask : lbaStart >>> 24 &&& 0x0F = lbaStart / 2 ^ 24 % 16 := by
    rw [Nat.shiftRight_eq_div_pow]
    exact Nat.and_two_pow_sub_one_eq_mod _ 4
  rw [issued, hmask]
  exact devSel_eq _ (Nat.mod_lt _ (by decide))

theorem issued_selected (lbaStart secNum : Nat) : Selected (issued lbaStart secNum) := by
  rw [Selected, issued_devSel]
  omega

theorem lba_issued (lbaStart secNum : Nat) : lba (issued lbaStart secNum) = lbaStart % 2 ^ 28 := by
  have hmask : ∀ x, (x &&& 0xFF) % 2 ^ 8 = x % 256 := fun x => by
    have hand : x &&& 0xFF = x % 2 ^ 8 := Nat.and_two_pow_sub_one_eq_mod x 8
    rw [hand, Nat.mod_mod]
    rfl
  rw [lba, issued_devSel]
  simp only [issued, hmask, Nat.shiftRight_eq_div_pow]
  omega

theorem count_issued {lbaStart secNum : Nat} (h : 1 ≤ secNum ∧ secNum ≤ 256) : count (issued lbaStart secNum) = secNum := by
  have hsecCount : (issued lbaStart secNum).secCount = secNum % 256 := rfl
  rw [count, hsecCount]
  split <;> omega

/-- A write of a register of a disk without a command. -/
theorem outb_ready (h : Ready t capacity regs disk medium d) {port val : Nat} {regs' : Registers}
    {f : Registers → Registers}
    (hport : portWrite { d with regs := regs' } port (val % 2 ^ 8) = Device.setRegs { d with regs := regs' } f) :
    outb port val { d with regs := regs' } = (.ok (), { d with regs := f regs' }) := by
  rw [outb, hport, Device.setRegs]
  simp only [h.idle]

theorem portWrite_devSel (d : Device) (val : Nat) :
    portWrite d (ataPrMstIoBase + ataHdDevSel) val = d.setRegs fun r => { r with devSel := val } := rfl

theorem portWrite_devCtrl (d : Device) (val : Nat) :
    portWrite d (ataPrMstCtrlBase + ataDevCtrl) val = d.setRegs fun r => { r with devCtrl := val } := rfl

theorem portWrite_secCount (d : Device) (val : Nat) :
    portWrite d (ataPrMstIoBase + ataSecCount) val = d.setRegs fun r => { r with secCount := val } := rfl

theorem portWrite_lba0 (d : Device) (val : Nat) :
    portWrite d (ataPrMstIoBase + ataLba0) val = d.setRegs fun r => { r with lba0 := val } := rfl

theorem portWrite_lba1 (d : Device) (val : Nat) :
    portWrite d (ataPrMstIoBase + ataLba1) val = d.setRegs fun r => { r with lba1 := val } := rfl

theorem portWrite_lba2 (d : Device) (val : Nat) :
    portWrite d (ataPrMstIoBase + ataLba2) val = d.setRegs fun r => { r with lba2 := val } := rfl

/-- Both transfers give their command to a disk with the registers of the request. -/
theorem ataIssue_eq (h : Ready t capacity regs disk medium d) (lbaStart secNum cmd : Nat) :
    ataIssue (fuel + 1) lbaStart secNum cmd d =
      (.ok (), settle 4 (Device.command { d with regs := issued lbaStart secNum } (cmd % 2 ^ 8))) := by
  have hpoll : ∀ regs, ataPollBsyDrq (fuel + 1) 0 { d with regs := regs } = (.ok 0x40, { d with regs := regs }) :=
    fun regs => by
      have hready := h.withRegs regs
      rw [ataPollBsyDrq_pending (.settled hready.settled) hready.holds.error (by simp), status, hready.idle]
      simp only [h.holds.error]
      rfl
  have hdrdy : ∀ regs, ataPollDrdy (fuel + 1) { d with regs := regs } = (.ok (), { d with regs := regs }) :=
    fun regs => ataPollDrdy_settled (h.withRegs regs).settled (h.withRegs regs).holds.error
  change ataIssue (fuel + 1) lbaStart secNum cmd { d with regs := d.regs } = _
  rw [ataIssue, AtaM.bind_ok (outb_ready h (portWrite_devSel _ _)), AtaM.bind_ok (hpoll _), AtaM.bind_ok (hdrdy _),
    AtaM.bind_ok (outb_ready h (portWrite_devCtrl _ _)), AtaM.bind_ok (outb_ready h (portWrite_secCount _ _)),
    AtaM.bind_ok (outb_ready h (portWrite_lba0 _ _)), AtaM.bind_ok (outb_ready h (portWrite_lba1 _ _)),
    AtaM.bind_ok (outb_ready h (portWrite_lba2 _ _))]
  rfl

theorem Ready.command_start (h : Ready t capacity regs disk medium d) {cmd : Nat} {w : Work} (hsel : Selected d.regs)
    (hcmd : cmd = 0x20 ∧ w = .read (lba d.regs) (count d.regs) ∨ cmd = 0x30 ∧ w = .write (lba d.regs) (count d.regs) ∨
      cmd = 0xE7 ∧ w = .flush) : d.command cmd = d.start w (d.timing.commandLag d.periods) := by
  have herror : { d with error := false } = d := by
    rw [← h.holds.error]
  unfold Device.command
  split
  next =>
    rw [herror, if_neg (not_not_intro hsel)]
    obtain ⟨rfl, rfl⟩ | ⟨rfl, rfl⟩ | ⟨rfl, rfl⟩ := hcmd <;> rfl
  next hphase => exact absurd h.idle hphase

/-- Behind a command of a transfer the disk is at work on the sectors of the request. -/
theorem ataIssue_pending (h : Ready t capacity regs disk medium d) (hp : Prompt fuel t) (lbaStart : Nat)
    {secNum cmd : Nat} {w : Work} (hn : 1 ≤ secNum ∧ secNum ≤ 256)
    (hcmd : cmd = ataCmdReadSectors ∧ w = .read (lbaStart % 2 ^ 28) secNum ∨
      cmd = ataCmdWriteSectors ∧ w = .write (lbaStart % 2 ^ 28) secNum) :
    ∃ e d', Holds t capacity (issued lbaStart secNum) disk medium e ∧ ataIssue (fuel + 1) lbaStart secNum cmd d = (.ok (), d') ∧
      Pending (fuel + 1) (e.finish w) d' := by
  have hready := h.withRegs (issued lbaStart secNum)
  have hstart : Device.command { d with regs := issued lbaStart secNum } (cmd % 2 ^ 8) =
      Device.start { d with regs := issued lbaStart secNum } w (d.timing.commandLag d.periods) := by
    refine hready.command_start (issued_selected _ _) ?_
    rw [lba_issued, count_issued hn]
    obtain ⟨rfl, hw⟩ | ⟨rfl, hw⟩ := hcmd
    · exact .inl ⟨rfl, hw⟩
    · exact .inr (.inl ⟨rfl, hw⟩)
  refine ⟨_, _, hready.holds.base, ataIssue_eq h _ _ _, ?_⟩
  rw [hstart]
  exact hready.command_pending hp w

/-! ## Reading -/

/-- The two bytes of a word. -/
theorem store8_load16 (m : Mem) (a : Nat) (buf : Buf) (p : Nat) :
    store8 (store8 buf p (UInt8.ofNat (load16 m a &&& 0xFF))) (p + 1) (UInt8.ofNat (load16 m a >>> 8 &&& 0xFF)) =
      fun x => if p ≤ x ∧ x < p + 2 then m (a + (x - p)) else buf x := by
  have hmask : ∀ x, UInt8.ofNat (x &&& 0xFF) = UInt8.ofNat x := fun x => by
    have hand : x &&& 0xFF = x % 2 ^ 8 := Nat.and_two_pow_sub_one_eq_mod x 8
    apply UInt8.toNat_inj.mp
    rw [UInt8.toNat_ofNat', UInt8.toNat_ofNat', hand, Nat.mod_mod]
  have hfst : UInt8.ofNat (load16 m a &&& 0xFF) = m a := by
    have hbyte := load_byte m a (by decide : 0 < 2)
    rw [pow_zero, Nat.div_one] at hbyte
    rw [hmask]
    exact hbyte
  have hsnd : UInt8.ofNat (load16 m a >>> 8 &&& 0xFF) = m (a + 1) := by
    have hbyte := load_byte m a (by decide : 1 < 2)
    rw [hmask, Nat.shiftRight_eq_div_pow]
    exact hbyte
  funext x
  rw [hfst, hsnd]
  unfold store8
  split
  next hx =>
    obtain rfl := hx
    rw [if_pos (by omega), Nat.add_sub_cancel_left]
  next hx =>
    split
    next hx' =>
      obtain rfl := hx'
      rw [if_pos (by omega), Nat.sub_self, Nat.add_zero]
    next hx' => rw [if_neg (by omega)]

/-- The first poll of a buffer waits until the disk has the block. -/
theorem readLoop_pending (h : Pending (fuel + 1) r d) (herror : r.error = false) (pos k i : Nat) (buf : Buf) :
    readLoop (fuel + 1) pos (k + 1) i buf d = readLoop (fuel + 1) pos (k + 1) i buf r := by
  have hq : 1 ∈ [0, 1] := by simp
  rw [readLoop, AtaM.bind_ok (ataPollBsyDrq_pending h herror hq),
    AtaM.bind_ok (ataPollBsyDrq_pending (.settled h.result_settled) herror hq)]

/-- The disk behind the last word of a block. -/
def endIn (e : Device) (lba count : Nat) : Device := (Device.readData { e with phase := .dataIn lba count 255 }).2

/-- The buffer with `n` bytes of the disk. -/
def fetched (disk : Mem) (a p n : Nat) (buf : Buf) : Buf := fun x =>
  if p ≤ x ∧ x < p + n then disk (a + (x - p)) else buf x

theorem fetched_fetched (a p n m : Nat) (buf : Buf) :
    fetched disk (a + n) (p + n) m (fetched disk a p n buf) = fetched disk a p (n + m) buf := by
  funext x
  unfold fetched
  split
  next hx =>
    rw [if_pos (by omega)]
    congr 1
    omega
  next hx =>
    split
    next hx' => rw [if_pos (by omega)]
    next hx' => rw [if_neg (by omega)]

theorem readLoop_word (he : Holds t capacity regs disk medium e) (lba count pos j : Nat) {k : Nat} (buf : Buf) :
    readLoop (fuel + 1) pos (k + 1) (2 * j) buf { e with phase := .dataIn lba count j } =
      readLoop (fuel + 1) pos k (2 * (j + 1)) (fetched disk (blockSize * lba + 2 * j) (pos + 2 * j) 2 buf)
        (Device.readData { e with phase := .dataIn lba count j }).2 := by
  have hq : 1 ∈ [0, 1] := by simp
  have hsettled : Settled { e with phase := .dataIn lba count j } := ⟨he.lag, fun n w => Phase.noConfusion⟩
  have hpoll := ataPollBsyDrq_pending (.settled hsettled : Pending (fuel + 1) _ _) he.error hq
  have hword : inw (ataPrMstIoBase + ataData) { e with phase := .dataIn lba count j } =
      (.ok (load16 disk (blockSize * lba + 2 * j)), (Device.readData { e with phase := .dataIn lba count j }).2) := by
    rw [← he.disk]
    rfl
  have hbytes := store8_load16 disk (blockSize * lba + 2 * j) buf (pos + 2 * j)
  rw [readLoop, AtaM.bind_ok hpoll, AtaM.bind_ok hword, ← Nat.add_assoc pos, hbytes]
  rfl

theorem fetched_zero (a p : Nat) (buf : Buf) : fetched disk a p 0 buf = buf :=
  funext fun _ => if_neg (by omega)

/-- The words of a block from word `j` on. -/
theorem readLoop_eq (he : Holds t capacity regs disk medium e) (lba count pos : Nat) {k j : Nat} (hkj : k + j = 255) (buf : Buf) :
    readLoop (fuel + 1) pos (k + 1) (2 * j) buf { e with phase := .dataIn lba count j } =
      (.ok (fetched disk (blockSize * lba + 2 * j) (pos + 2 * j) (2 * (k + 1)) buf), endIn e lba count) := by
  induction k generalizing j buf with
  | zero =>
      obtain rfl : j = 255 := by omega
      rw [readLoop_word he lba count pos 255 buf]
      rfl
  | succ k ih =>
      have hnext : (Device.readData { e with phase := .dataIn lba count j }).2 =
          { e with phase := .dataIn lba count (j + 1) } := if_pos (by rw [blockWords]; omega)
      rw [readLoop_word he, hnext, ih (by omega)]
      have hdisk : blockSize * lba + 2 * (j + 1) = blockSize * lba + 2 * j + 2 := by omega
      have hpos : pos + 2 * (j + 1) = pos + 2 * j + 2 := by omega
      have hlen : 2 + 2 * (k + 1) = 2 * (k + 1 + 1) := by omega
      rw [hdisk, hpos, fetched_fetched, hlen]

/-! ### Blocks -/

theorem ataReadBuffer_eq (he : Holds t capacity regs disk medium e) (lba count pos : Nat) (buf : Buf)
    (h : Pending (fuel + 1) { e with phase := .dataIn lba count 0 } d) :
    ataReadBuffer (fuel + 1) pos buf 512 d =
      (.ok (fetched disk (blockSize * lba) pos blockSize buf), endIn e lba count) := by
  have hwords : (512 + 1) / 2 = 255 + 1 := rfl
  rw [ataReadBuffer, hwords, readLoop_pending h he.error]
  exact readLoop_eq he lba count pos (by decide : 255 + 0 = 255) buf

/-- Behind the last block the disk has no command. -/
theorem endIn_last (he : Holds t capacity regs disk medium e) (lba : Nat) : Ready t capacity regs disk medium (endIn e lba 1) :=
  ⟨he.withPhase .idle, rfl⟩

/-- In front of sector `i` the disk is at work on it, which behind another block may not show yet. -/
inductive Before (fuel : Nat) (r : Device) : Nat → Device → Prop
  | first {d : Device} (h : Pending (fuel + 1) r d) : Before fuel r 0 d
  | next {i l : Nat} {d : Device} (h : Lagging (fuel + 1) l r d) (hl : l ≤ 2) (hshown : d.shown = 0x48) :
      Before fuel r (i + 1) d

/-- Behind another block the disk gets the next one. -/
theorem endIn_before (he : Holds t capacity regs disk medium e) (hp : Prompt fuel t) (lba count i : Nat) :
    Before fuel ((base { e with phase := .dataIn lba (count + 2) 255 }).finish (.read (lba + 1) (count + 1))) (i + 1)
      (endIn e lba (count + 2)) := by
  have hdelay := hp.delay e.periods
  have hlag := hp.readLag e.periods
  rw [← he.timing] at hdelay hlag
  have hend : endIn e lba (count + 2) = Device.start { e with phase := .dataIn lba (count + 2) 255 }
      (.read (lba + 1) (count + 1)) (e.timing.readLag e.periods) := by
    have hmore : 1 < count + 2 := by omega
    rw [endIn, readData]
    dsimp only
    rw [if_neg (by decide), if_pos hmore]
    rfl
  rw [hend]
  refine .next (start_lagging _ _ ?_) hlag rfl
  exact Nat.lt_succ_of_le hdelay

theorem ataReadBuffer_pending (h : Pending (fuel + 1) r d) (herror : r.error = false) (pos : Nat) (buf : Buf) :
    ataReadBuffer (fuel + 1) pos buf 512 d = ataReadBuffer (fuel + 1) pos buf 512 r :=
  readLoop_pending h herror pos 255 0 buf

theorem ataReadBuffer_error (h : Pending (fuel + 1) r d) (herror : r.error = true) (hidle : r.phase = .idle)
    (pos : Nat) (buf : Buf) : ataReadBuffer (fuel + 1) pos buf 512 d = (.error .panic, r) := by
  have hwords : (512 + 1) / 2 = 255 + 1 := rfl
  rw [ataReadBuffer, hwords, readLoop, AtaM.bind_error (ataPollBsyDrq_error h herror hidle 1)]

/-- What comes before a buffer changes nothing. -/
theorem readSectors_before {i : Nat} (h : Before fuel r i d) (herror : r.error = false) (n : Nat) (buf : Buf) :
    readSectors (fuel + 1) (n + 1) i buf d =
      (ataReadBuffer (fuel + 1) (512 * i) buf 512 >>= readSectors (fuel + 1) n (i + 1)) r := by
  rw [readSectors]
  cases h with
  | first h =>
      rw [if_neg (Nat.lt_irrefl 0)]
      exact AtaM.bind_congr (ataReadBuffer_pending h herror _ _) _
  | next h hl hshown =>
      have hidle : r.error = true → r.phase = .idle := fun htrue => absurd (herror.symm.trans htrue) Bool.noConfusion
      obtain ⟨s, d', hpoll, hd'⟩ | ⟨htrue, -⟩ := ataPollBsyDrq_lagging h hl hshown hidle
      · rw [if_pos (Nat.succ_pos _), AtaM.bind_ok hpoll]
        exact AtaM.bind_congr (ataReadBuffer_pending hd' herror _ _) _
      · exact absurd (herror.symm.trans htrue) Bool.noConfusion

theorem readSectors_error {i : Nat} (h : Before fuel r i d) (herror : r.error = true) (hidle : r.phase = .idle)
    (n : Nat) (buf : Buf) : readSectors (fuel + 1) (n + 1) i buf d = (.error .panic, r) := by
  rw [readSectors]
  cases h with
  | first h =>
      rw [if_neg (Nat.lt_irrefl 0)]
      exact AtaM.bind_error (ataReadBuffer_error h herror hidle _ _)
  | next h hl hshown =>
      rw [if_pos (Nat.succ_pos _)]
      obtain ⟨s, d', hpoll, hd'⟩ | ⟨-, hpoll⟩ := ataPollBsyDrq_lagging h hl hshown fun _ => hidle
      · rw [AtaM.bind_ok hpoll]
        exact AtaM.bind_error (ataReadBuffer_error hd' herror hidle _ _)
      · rw [AtaM.bind_error hpoll]

theorem Before.result_settled {i : Nat} (h : Before fuel r i d) : Settled r := by
  cases h with
  | first h => exact h.result_settled
  | next h _ _ => exact (h.settle (le_refl _)).result_settled

/-- The sectors of a request: all of them, or a panic at the end of the disk. -/
theorem readSectors_eq (he : Holds t capacity regs disk medium e) (hp : Prompt fuel t) {lba n i : Nat}
    (buf : Buf) (h : Before fuel (e.finish (.read lba (n + 1))) i d) :
    (lba + (n + 1) ≤ capacity → ∃ d', readSectors (fuel + 1) (n + 1) i buf d =
      (.ok (fetched disk (blockSize * lba) (512 * i) (512 * (n + 1)) buf), d') ∧ Ready t capacity regs disk medium d') ∧
    (capacity < lba + (n + 1) → ∃ d', readSectors (fuel + 1) (n + 1) i buf d = (.error .panic, d') ∧ d'.disk = disk) := by
  induction n generalizing e lba i buf d with
  | zero =>
      by_cases hlba : lba < capacity
      · rw [finish_read he hlba] at h
        have hblock := ataReadBuffer_eq he lba 1 (512 * i) buf (.settled h.result_settled : Pending (fuel + 1) _ _)
        refine ⟨fun _ => ⟨endIn e lba 1, ?_, endIn_last he lba⟩, fun hend => absurd hend (by omega)⟩
        rw [readSectors_before h he.error, AtaM.bind_ok hblock]
        rfl
      · rw [finish_read_error he (Nat.not_lt.mp hlba)] at h
        exact ⟨fun hend => absurd hend (by omega), fun _ => ⟨_, readSectors_error h rfl rfl _ _, he.disk⟩⟩
  | succ n ih =>
      by_cases hlba : lba < capacity
      · rw [finish_read he hlba] at h
        have hblock := ataReadBuffer_eq he lba (n + 2) (512 * i) buf (.settled h.result_settled : Pending (fuel + 1) _ _)
        obtain ⟨hok, hpanic⟩ := ih (he.withPhase _).base (fetched disk (blockSize * lba) (512 * i) blockSize buf)
          (endIn_before he hp lba n i)
        rw [readSectors_before h he.error, AtaM.bind_ok hblock]
        refine ⟨fun hend => ?_, fun hend => hpanic (by omega)⟩
        obtain ⟨d', hrun, hd'⟩ := hok (by omega)
        have hdisk : blockSize * (lba + 1) = blockSize * lba + blockSize := Nat.mul_succ _ _
        have hpos : 512 * (i + 1) = 512 * i + blockSize := Nat.mul_succ _ _
        have hlen : blockSize + 512 * (n + 1) = 512 * (n + 1 + 1) := (Nat.add_comm _ _).trans (Nat.mul_succ _ _).symm
        refine ⟨d', hrun.trans ?_, hd'⟩
        rw [hdisk, hpos, fetched_fetched, hlen]
      · rw [finish_read_error he (Nat.not_lt.mp hlba)] at h
        exact ⟨fun hend => absurd hend (by omega), fun _ => ⟨_, readSectors_error h rfl rfl _ _, he.disk⟩⟩

/-! ## Writing -/

theorem store16_bytes (m : Mem) (p : Nat) (buf : Buf) (a : Nat) :
    store16 m p (((buf a).toNat + (buf (a + 1)).toNat <<< 8) % 2 ^ 16) = fetched buf a p 2 m := by
  have hfst := (buf a).toNat_lt
  have hsnd := (buf (a + 1)).toNat_lt
  have hword : ((buf a).toNat + (buf (a + 1)).toNat <<< 8) % 2 ^ 16 = (buf a).toNat + 256 * (buf (a + 1)).toNat := by
    rw [Nat.shiftLeft_eq]
    omega
  rw [hword]
  funext x
  unfold store16 store fetched
  split
  next hx =>
    obtain rfl | rfl : x = p ∨ x = p + 1 := by omega
    · have hzero : a + 0 = a := Nat.add_zero a
      apply UInt8.toNat_inj.mp
      rw [Nat.sub_self, pow_zero, Nat.div_one, UInt8.toNat_ofNat', hzero]
      omega
    · rw [Nat.add_sub_cancel_left, pow_one]
      apply UInt8.toNat_inj.mp
      rw [UInt8.toNat_ofNat']
      omega
  next hx => rfl

theorem writeLoop_pending (h : Pending (fuel + 1) r d) (herror : r.error = false) (pos : Nat) (buf : Buf) (k i : Nat) :
    writeLoop (fuel + 1) pos buf (k + 1) i d = writeLoop (fuel + 1) pos buf (k + 1) i r := by
  have hq : 1 ∈ [0, 1] := by simp
  rw [writeLoop, AtaM.bind_ok (ataPollBsyDrq_pending h herror hq),
    AtaM.bind_ok (ataPollBsyDrq_pending h.result herror hq)]

/-- The disk behind the last word of a block. -/
def endOut (e : Device) (lba count : Nat) (block : Mem) : Device :=
  Device.start { e with disk := putBlock e.disk lba block, phase := .dataOut lba count 255 block }
    (if 1 < count then .write (lba + 1) (count - 1) else .done) (e.timing.writeLag e.periods)

theorem writeLoop_word (he : Holds t capacity regs disk medium e) (lba count pos j : Nat) {k : Nat} (buf : Buf) (block : Mem) :
    writeLoop (fuel + 1) pos buf (k + 1) (2 * j) { e with phase := .dataOut lba count j block } =
      writeLoop (fuel + 1) pos buf k (2 * (j + 1)) (Device.writeData { e with phase := .dataOut lba count j block }
        (((buf (pos + 2 * j)).toNat + (buf (pos + 2 * j + 1)).toNat <<< 8) % 2 ^ 16)) := by
  have hq : 1 ∈ [0, 1] := by simp
  have hsettled : Settled { e with phase := .dataOut lba count j block } := ⟨he.lag, fun n w => Phase.noConfusion⟩
  have hpoll := ataPollBsyDrq_pending (.settled hsettled : Pending (fuel + 1) _ _) he.error hq
  rw [writeLoop, AtaM.bind_ok hpoll]
  rfl

/-- The words of a block from word `j` on. -/
theorem writeLoop_eq (he : Holds t capacity regs disk medium e) (lba count pos : Nat) {k j : Nat} (hkj : k + j = 255)
    (buf : Buf) (block : Mem) :
    writeLoop (fuel + 1) pos buf (k + 1) (2 * j) { e with phase := .dataOut lba count j block } =
      (.ok (), endOut e lba count (fetched buf (pos + 2 * j) (2 * j) (2 * (k + 1)) block)) := by
  induction k generalizing j block with
  | zero =>
      obtain rfl : j = 255 := by omega
      rw [writeLoop_word he]
      have hlast : Device.writeData { e with phase := .dataOut lba count 255 block }
          (((buf (pos + 2 * 255)).toNat + (buf (pos + 2 * 255 + 1)).toNat <<< 8) % 2 ^ 16) =
            endOut e lba count (fetched buf (pos + 2 * 255) (2 * 255) 2 block) := by
        rw [← store16_bytes, writeData]
        dsimp only
        rw [if_neg (by decide)]
        rfl
      rw [hlast]
      rfl
  | succ k ih =>
      have hnext : Device.writeData { e with phase := .dataOut lba count j block }
          (((buf (pos + 2 * j)).toNat + (buf (pos + 2 * j + 1)).toNat <<< 8) % 2 ^ 16) =
            { e with phase := .dataOut lba count (j + 1) (fetched buf (pos + 2 * j) (2 * j) 2 block) } := by
        have hlt : j + 1 < blockWords := by
          rw [blockWords]
          omega
        rw [← store16_bytes, writeData]
        dsimp only
        rw [if_pos hlt]
      rw [writeLoop_word he, hnext, ih (by omega)]
      have hpos : pos + 2 * (j + 1) = pos + 2 * j + 2 := by omega
      have hword : 2 * (j + 1) = 2 * j + 2 := by omega
      have hlen : 2 + 2 * (k + 1) = 2 * (k + 1 + 1) := by omega
      rw [hpos, hword, fetched_fetched, hlen]

theorem putBlock_fetched (m : Mem) (lba pos : Nat) (buf block : Buf) :
    putBlock m lba (fetched buf pos 0 blockSize block) = fetched buf pos (blockSize * lba) blockSize m := by
  funext x
  unfold putBlock fetched
  split
  next hx => rw [if_pos (by omega), Nat.sub_zero]
  next hx => rfl

/-- The disk behind the last word of a block from a buffer. -/
def sentBlock (e : Device) (lba count : Nat) (buf : Buf) (pos : Nat) : Device :=
  endOut e lba count (fetched buf pos 0 blockSize fun _ => 0)

theorem ataWriteBuffer_eq (he : Holds t capacity regs disk medium e) (lba count pos : Nat) (buf : Buf)
    (h : Pending (fuel + 1) { e with phase := .dataOut lba count 0 fun _ => 0 } d) :
    ataWriteBuffer (fuel + 1) pos buf 512 d = (.ok (), sentBlock e lba count buf pos) := by
  have hwords : (512 + 1) / 2 = 255 + 1 := rfl
  rw [ataWriteBuffer, hwords, writeLoop_pending h he.error]
  exact writeLoop_eq he lba count pos (by decide : 255 + 0 = 255) buf _

/-- Behind a block and one read of the status the disk is at work on the next one, or it has none. -/
theorem sentBlock_pending (he : Holds t capacity regs disk medium e) (hp : Prompt fuel t) (lba count : Nat) (buf : Buf)
    (pos : Nat) : ∃ e', Holds t capacity regs (fetched buf pos (blockSize * lba) blockSize disk) medium e' ∧
      Pending (fuel + 1) (e'.finish (if 1 < count then .write (lba + 1) (count - 1) else .done))
        (sentBlock e lba count buf pos).readStatus.2 := by
  have hdelay := hp.delay e.periods
  have hlag := hp.writeLag e.periods
  have hdisk := putBlock_fetched e.disk lba pos buf fun _ => 0
  rw [← he.timing] at hdelay hlag
  rw [he.disk] at hdisk
  refine ⟨base { e with
    disk := putBlock e.disk lba (fetched buf pos 0 blockSize fun _ => 0)
    phase := .dataOut lba count 255 (fetched buf pos 0 blockSize fun _ => 0) }, ?_, ?_⟩
  · rw [← hdisk, he.disk]
    exact ((he.withDisk _).withPhase _).base
  · have hstart : Lagging (fuel + 1) _ _ (sentBlock e lba count buf pos) := start_lagging _ _ (Nat.lt_succ_of_le hdelay)
    exact hstart.settle (k := 1) hlag

/-- A poll in front of a buffer changes nothing. -/
theorem writeSectors_pending {n i : Nat} (h : Pending (fuel + 1) r (if 0 < i then d.readStatus.2 else d))
    (herror : r.error = false) (buf : Buf) : writeSectors (fuel + 1) buf (n + 1) i d =
      (ataWriteBuffer (fuel + 1) (512 * i) buf 512 >>= fun _ => writeSectors (fuel + 1) buf n (i + 1)) r := by
  have hwords : (512 + 1) / 2 = 255 + 1 := rfl
  have hq : 1 ∈ [0, 1] := by simp
  rw [writeSectors]
  by_cases hi : 0 < i
  · rw [if_pos hi] at h
    rw [if_pos hi, AtaM.bind_ok (inb_altStatus d), AtaM.bind_ok (ataPollBsyDrq_pending h herror hq)]
  · rw [if_neg hi] at h
    rw [if_neg hi, ataWriteBuffer, hwords]
    exact AtaM.bind_congr (writeLoop_pending h herror _ _ _ _) _

theorem writeSectors_error {n i : Nat} (h : Pending (fuel + 1) r (if 0 < i then d.readStatus.2 else d))
    (herror : r.error = true) (hidle : r.phase = .idle) (buf : Buf) :
    writeSectors (fuel + 1) buf (n + 1) i d = (.error .panic, r) := by
  have hwords : (512 + 1) / 2 = 255 + 1 := rfl
  rw [writeSectors]
  by_cases hi : 0 < i
  · rw [if_pos hi] at h
    rw [if_pos hi, AtaM.bind_ok (inb_altStatus d), AtaM.bind_error (ataPollBsyDrq_error h herror hidle 1)]
  · rw [if_neg hi] at h
    rw [if_neg hi, ataWriteBuffer, hwords, writeLoop]
    exact AtaM.bind_error (AtaM.bind_error (ataPollBsyDrq_error h herror hidle 1))

/-- The sectors of a request: all of them, or those up to the end of the disk and a panic. -/
theorem writeSectors_eq (he : Holds t capacity regs disk medium e) (hp : Prompt fuel t) {lba n : Nat} (i : Nat) (buf : Buf)
    (h : Pending (fuel + 1) (e.finish (.write lba (n + 1))) (if 0 < i then d.readStatus.2 else d)) :
    (lba + (n + 1) ≤ capacity → ∃ d' r, writeSectors (fuel + 1) buf (n + 1) i d = (.ok (), d') ∧
      Pending (fuel + 1) r d'.readStatus.2 ∧
      Ready t capacity regs (fetched buf (512 * i) (blockSize * lba) (512 * (n + 1)) disk) medium r) ∧
    (capacity < lba + (n + 1) → ∃ d', writeSectors (fuel + 1) buf (n + 1) i d = (.error .panic, d') ∧
      d'.disk = fetched buf (512 * i) (blockSize * lba) (512 * (capacity - lba)) disk) := by
  induction n generalizing e lba i d disk with
  | zero =>
      by_cases hlba : lba < capacity
      · rw [finish_write he hlba] at h
        have hblock := ataWriteBuffer_eq he lba 1 (512 * i) buf h.result
        obtain ⟨e', he', hsent⟩ := sentBlock_pending he hp lba 1 buf (512 * i)
        refine ⟨fun _ => ⟨_, _, ?_, hsent, he'.withPhase .idle, rfl⟩, fun hend => absurd hend (by omega)⟩
        rw [writeSectors_pending h he.error, AtaM.bind_ok hblock]
        rfl
      · rw [finish_write_error he (Nat.not_lt.mp hlba)] at h
        refine ⟨fun hend => absurd hend (by omega), fun _ => ⟨_, writeSectors_error h rfl rfl _, ?_⟩⟩
        rw [he.disk, Nat.sub_eq_zero_of_le (Nat.not_lt.mp hlba), fetched_zero]
  | succ n ih =>
      by_cases hlba : lba < capacity
      · rw [finish_write he hlba] at h
        have hblock := ataWriteBuffer_eq he lba (n + 2) (512 * i) buf h.result
        obtain ⟨e', he', hsent⟩ := sentBlock_pending he hp lba (n + 2) buf (512 * i)
        have hmore : 1 < n + 2 := by omega
        rw [if_pos hmore] at hsent
        have hnext : Pending (fuel + 1) (e'.finish (.write (lba + 1) (n + 1)))
            (if 0 < i + 1 then (sentBlock e lba (n + 2) buf (512 * i)).readStatus.2
              else sentBlock e lba (n + 2) buf (512 * i)) := by
          rw [if_pos (Nat.succ_pos i)]
          exact hsent
        obtain ⟨hok, hpanic⟩ := ih he' (i + 1) hnext
        rw [writeSectors_pending h he.error, AtaM.bind_ok hblock]
        have hdisk : blockSize * (lba + 1) = blockSize * lba + blockSize := Nat.mul_succ _ _
        have hbuf : 512 * (i + 1) = 512 * i + blockSize := Nat.mul_succ _ _
        have hlen : ∀ k, blockSize + 512 * k = 512 * (k + 1) := fun k =>
          (Nat.add_comm _ _).trans (Nat.mul_succ _ _).symm
        constructor
        · intro hend
          obtain ⟨d', r, hrun, hr, hready⟩ := hok (by omega)
          rw [hdisk, hbuf, fetched_fetched, hlen] at hready
          exact ⟨d', r, hrun, hr, hready⟩
        · intro hend
          obtain ⟨d', hrun, hd'⟩ := hpanic (by omega)
          have hrest : capacity - (lba + 1) + 1 = capacity - lba := by omega
          rw [hdisk, hbuf, fetched_fetched, hlen, hrest] at hd'
          exact ⟨d', hrun, hd'⟩
      · rw [finish_write_error he (Nat.not_lt.mp hlba)] at h
        refine ⟨fun hend => absurd hend (by omega), fun _ => ⟨_, writeSectors_error h rfl rfl _, ?_⟩⟩
        rw [he.disk, Nat.sub_eq_zero_of_le (Nat.not_lt.mp hlba), fetched_zero]

/-! ## The two transfers -/

/-- The number of sectors that `ata_read_sector` asks for. -/
def requested (secNum bufSize : Nat) : Nat := if bufSize / 512 < secNum then bufSize / 512 else secNum

theorem ataReadSector_zero (lbaStart : Nat) {secNum bufSize : Nat} (buf : Buf) (hn : requested secNum bufSize = 0) :
    ataReadSector (fuel + 1) lbaStart secNum bufSize buf d = (.ok (0, buf), d) := by
  unfold ataReadSector
  rw [requested] at hn
  rw [hn]
  rfl

/-- A request that has sectors reads all of them, or it panics at the end of the disk. -/
theorem ataReadSector_eq (h : Ready t capacity regs disk medium d) (hp : Prompt fuel t) (lbaStart : Nat)
    {secNum bufSize n : Nat} (buf : Buf) (hn : requested secNum bufSize = n + 1) (hle : n + 1 ≤ 256) :
    (lbaStart % 2 ^ 28 + (n + 1) ≤ capacity → ∃ d', ataReadSector (fuel + 1) lbaStart secNum bufSize buf d =
      (.ok (n + 1, fetched disk (blockSize * (lbaStart % 2 ^ 28)) 0 (512 * (n + 1)) buf), d') ∧
        Ready t capacity (issued lbaStart (n + 1)) disk medium d') ∧
    (capacity < lbaStart % 2 ^ 28 + (n + 1) → ∃ d', ataReadSector (fuel + 1) lbaStart secNum bufSize buf d =
      (.error .panic, d') ∧ d'.disk = disk) := by
  obtain ⟨e, d₁, he, hissue, hpending⟩ := ataIssue_pending h hp lbaStart ⟨Nat.succ_pos n, hle⟩
    (.inl ⟨rfl, rfl⟩)
  obtain ⟨hok, hpanic⟩ := readSectors_eq he hp buf (.first hpending)
  have hrun : ataReadSector (fuel + 1) lbaStart secNum bufSize buf d =
      (readSectors (fuel + 1) (n + 1) 0 buf >>= fun buf => pure (n + 1, buf)) d₁ := by
    unfold ataReadSector
    rw [requested] at hn
    rw [hn, if_neg (Nat.succ_ne_zero n), AtaM.bind_ok hissue]
  constructor
  · intro hend
    obtain ⟨d', hread, hready⟩ := hok hend
    refine ⟨d', ?_, hready⟩
    rw [hrun, AtaM.bind_ok hread]
    rfl
  · intro hend
    obtain ⟨d', hread, hdisk⟩ := hpanic hend
    refine ⟨d', ?_, hdisk⟩
    rw [hrun, AtaM.bind_error hread]

/-- The command behind the last block puts the sectors on the medium. -/
theorem flush_eq (h : Ready t capacity regs disk medium d) (hp : Prompt fuel t) (hsel : Selected regs) (n : Nat) :
    ∃ d', (do
      outb (ataPrMstIoBase + ataCommand) 0xE7
      ataWait
      let _ ← ataPollBsyDrq (fuel + 1) 0
      return n : AtaM Nat) d = (.ok n, d') ∧ Ready t capacity regs disk disk d' := by
  have hq : 0 ∈ [0, 1] := by simp
  have hcommand : outb (ataPrMstIoBase + ataCommand) 0xE7 d =
      (.ok (), d.start .flush (d.timing.commandLag d.periods)) := by
    refine congrArg (Prod.mk _) (h.command_start (h.holds.regs.symm ▸ hsel) (.inr (.inr ⟨rfl, rfl⟩)))
  have hpending := h.command_pending hp .flush
  have hready : Ready t capacity regs disk disk (d.base.finish .flush) :=
    ⟨⟨h.holds.timing, h.holds.capacity, h.holds.disk, h.holds.disk, h.holds.error, rfl, h.holds.regs⟩, rfl⟩
  refine ⟨d.base.finish .flush, ?_, hready⟩
  rw [AtaM.bind_ok hcommand, AtaM.bind_ok (ataWait_settle _),
    AtaM.bind_ok (ataPollBsyDrq_pending hpending hready.holds.error hq)]
  rfl

theorem ataWriteSector_eq (h : Ready t capacity regs disk medium d) (hp : Prompt fuel t) (lbaStart : Nat) {n : Nat} (buf : Buf)
    (hle : n + 1 ≤ 256) :
    (lbaStart % 2 ^ 28 + (n + 1) ≤ capacity → ∃ d', ataWriteSector (fuel + 1) lbaStart (n + 1) buf d = (.ok (n + 1), d') ∧
      ∃ disk', disk' = fetched buf 0 (blockSize * (lbaStart % 2 ^ 28)) (512 * (n + 1)) disk ∧
        Ready t capacity (issued lbaStart (n + 1)) disk' disk' d') ∧
    (capacity < lbaStart % 2 ^ 28 + (n + 1) → ∃ d', ataWriteSector (fuel + 1) lbaStart (n + 1) buf d =
      (.error .panic, d') ∧
      d'.disk = fetched buf 0 (blockSize * (lbaStart % 2 ^ 28)) (512 * (capacity - lbaStart % 2 ^ 28)) disk) := by
  obtain ⟨e, d₁, he, hissue, hpending⟩ := ataIssue_pending h hp lbaStart ⟨Nat.succ_pos n, hle⟩ (.inr ⟨rfl, rfl⟩)
  obtain ⟨hok, hpanic⟩ := writeSectors_eq he hp 0 buf hpending
  have hq : 0 ∈ [0, 1] := by simp
  rw [ataWriteSector, AtaM.bind_ok hissue]
  constructor
  · intro hend
    obtain ⟨d₂, r, hwrite, hr, hready⟩ := hok hend
    obtain ⟨d', hflush, hready'⟩ := flush_eq hready hp (issued_selected _ _) (n + 1)
    refine ⟨d', ?_, _, rfl, hready'⟩
    rw [AtaM.bind_ok hwrite, AtaM.bind_ok (inb_altStatus d₂), AtaM.bind_ok (ataPollBsyDrq_pending hr hready.holds.error hq),
      AtaM.bind_ok (ataPollDrdy_settled hready.settled hready.holds.error)]
    exact hflush
  · intro hend
    obtain ⟨d', hwrite, hdisk⟩ := hpanic hend
    exact ⟨d', AtaM.bind_error hwrite, hdisk⟩

end TsOs.Ata
