import Mathlib.Data.List.FinRange
import Xv6pp.Param

/-!
# The disk driver

`kernel/virtio_driver.cpp`: the `NUM` descriptors that the driver shares with the device, the two rings, and
the two functions that run under `vdisk_lock`.  A request is a chain of three descriptors: the header of the
request, the data of the buffer and the byte in which the device leaves its status.  The device is told the
first descriptor of the chain in the ring `avail` and says in the ring `used` that it is done with it.

`read_write` gives the lock up while it sleeps, so it is three sections: the attempt to allocate the
descriptors and, if that succeeds, to hand the request to the device; and the check whether the request is
done.  A process that sleeps may run again at any time, as after a wakeup.  `handle_interrupt` keeps the lock
for its whole loop, but the device works on meanwhile, so each round is a step of its own.

A buffer is a value of any type `β`, and the processes that call `read_write` are the values of any type `ι`.
-/

set_option autoImplicit false

namespace Xv6pp

/-! ## Shared memory -/

/-- The number of descriptors. -/
def NUM : Nat := 8

/-- A descriptor. -/
abbrev DescId : Type := Fin NUM

/-- What a descriptor may point to. -/
inductive DescAddr (β : Type)
  | null
  /-- `&ops[i]`. -/
  | op (i : DescId)
  /-- `b->data`. -/
  | data (b : β)
  /-- `&info[i].status`. -/
  | status (i : DescId)
  deriving DecidableEq

/-- `virtq_desc`. -/
structure VirtqDesc (β : Type) where
  addr : DescAddr β
  len : Nat
  /-- A 16-bit word. -/
  flags : Nat
  /-- A 16-bit word. -/
  next : Nat

/-- Chained with another descriptor. -/
def VRING_DESC_F_NEXT : Nat := 1

/-- The device writes. -/
def VRING_DESC_F_WRITE : Nat := 2

/-- `virtio_blk_req`. -/
structure BlkReq where
  type : Nat
  reserved : Nat
  sector : Nat

def VIRTIO_BLK_T_IN : Nat := 0
def VIRTIO_BLK_T_OUT : Nat := 1

/-- `sizeof(struct virtio_blk_req)`. -/
def sizeofBlkReq : Nat := 16

/-- What the driver notes of a request, at the first descriptor of its chain. -/
structure RequestInfo (β : Type) where
  b : Option β
  status : Nat

/-- `virtio_driver`, and `disk` of every buffer. -/
@[ext] structure VirtioDriver (β : Type) where
  desc : DescId → VirtqDesc β
  /-- `avail->idx`, a 16-bit word. -/
  availIdx : Nat
  /-- `avail->ring`. -/
  availRing : Nat → Nat
  /-- `used->idx`, a 16-bit word. -/
  usedIdx : Nat
  /-- The `id`s in `used->ring`. -/
  usedRing : Nat → Nat
  /-- Is a descriptor free? -/
  free : DescId → Bool
  /-- `used_idx`, a 16-bit word: we have looked this far in `used->ring`. -/
  lookedIdx : Nat
  info : DescId → RequestInfo β
  ops : DescId → BlkReq
  /-- `b->disk == 1`. -/
  disk : β → Bool

namespace VirtioDriver

variable {β : Type} [DecidableEq β]

/-- The state that `init` leaves. -/
def init : VirtioDriver β where
  desc _ := ⟨.null, 0, 0, 0⟩
  availIdx := 0
  availRing _ := 0
  usedIdx := 0
  usedRing _ := 0
  free _ := true
  lookedIdx := 0
  info _ := ⟨none, 0⟩
  ops _ := ⟨0, 0, 0⟩
  disk _ := false

/-- `free[i] = v`. -/
def setFree (d : VirtioDriver β) (i : DescId) (v : Bool) : VirtioDriver β :=
  { d with free := Function.update d.free i v }

/-- Overwrite a descriptor. -/
def setDesc (d : VirtioDriver β) (i : DescId) (x : VirtqDesc β) : VirtioDriver β :=
  { d with desc := Function.update d.desc i x }

/-- `alloc_desc`. -/
def allocDesc (d : VirtioDriver β) : Option (DescId × VirtioDriver β) :=
  ((List.finRange NUM).find? fun i => d.free i).map fun i => (i, d.setFree i false)

/-- The descriptor is cleared and free. -/
def clearDesc (d : VirtioDriver β) (i : DescId) : VirtioDriver β :=
  (d.setDesc i ⟨.null, 0, 0, 0⟩).setFree i true

/-- `free_desc`, less the wakeup. -/
def freeDesc (d : VirtioDriver β) (desci : Nat) : Except Panic (VirtioDriver β) :=
  if h : desci < NUM then
    if d.free ⟨desci, h⟩ then .error .freeDesc2
    else .ok (d.clearDesc ⟨desci, h⟩)
  else .error .freeDesc1

/-- The loop of `free_chain`.  Every round frees a descriptor, so after `NUM` rounds all are free. -/
def freeChain : Nat → VirtioDriver β → Nat → Except Panic (VirtioDriver β)
  | 0, _, _ => .error .freeDesc2
  | fuel + 1, d, desci =>
    if h : desci < NUM then
      let flag := (d.desc ⟨desci, h⟩).flags
      let nxt := (d.desc ⟨desci, h⟩).next
      match d.freeDesc desci with
      | .error e => .error e
      | .ok d => if flag &&& VRING_DESC_F_NEXT ≠ 0 then freeChain fuel d nxt else .ok d
    else .error .outOfBounds

/-- `alloc3_desc`. -/
def alloc3Desc (d : VirtioDriver β) :
    Except Panic (Option (DescId × DescId × DescId) × VirtioDriver β) :=
  match d.allocDesc with
  | none => .ok (none, d)
  | some (idx₀, d₀) =>
    match d₀.allocDesc with
    | none => (d₀.freeDesc idx₀).map fun d => (none, d)
    | some (idx₁, d₁) =>
      match d₁.allocDesc with
      | none => ((d₁.freeDesc idx₀).bind fun d => d.freeDesc idx₁).map fun d => (none, d)
      | some (idx₂, d₂) => .ok (some (idx₀, idx₁, idx₂), d₂)

/-- Format the three descriptors and record the buffer. -/
def format (d : VirtioDriver β) (idx₀ idx₁ idx₂ : DescId) (b : β) (blockno : Nat) (write : Bool) :
    VirtioDriver β :=
  let d := d.setDesc idx₀ ⟨.op idx₀, sizeofBlkReq, VRING_DESC_F_NEXT, idx₁⟩
  let d := d.setDesc idx₁
    ⟨.data b, BSIZE, (if write then 0 else VRING_DESC_F_WRITE) ||| VRING_DESC_F_NEXT, idx₂⟩
  let d := d.setDesc idx₂ ⟨.status idx₀, 1, VRING_DESC_F_WRITE, 0⟩
  { d with
    ops := Function.update d.ops idx₀
      ⟨if write then VIRTIO_BLK_T_OUT else VIRTIO_BLK_T_IN, 0, blockno * (BSIZE / 512) % 2 ^ 32⟩
    info := Function.update d.info idx₀ ⟨some b, 0xff⟩
    disk := Function.update d.disk b true }

/-- Tell the device the first descriptor of the chain. -/
def publish (d : VirtioDriver β) (idx₀ : DescId) : VirtioDriver β :=
  { d with
    availRing := Function.update d.availRing (d.availIdx % NUM) idx₀
    availIdx := (d.availIdx + 1) % 2 ^ 16 }

/-- The end of `read_write`. -/
def finish (d : VirtioDriver β) (idx₀ : DescId) : Except Panic (VirtioDriver β) :=
  freeChain NUM { d with info := Function.update d.info idx₀ { d.info idx₀ with b := none } } idx₀

/-- A round of the loop of `handle_interrupt`. -/
def handle (d : VirtioDriver β) : Except Panic (VirtioDriver β) :=
  let id := d.usedRing (d.lookedIdx % NUM)
  if h : id < NUM then
    if (d.info ⟨id, h⟩).status ≠ 0 then .error .virtioDiskIntrStatus
    else
      match (d.info ⟨id, h⟩).b with
      | none => .error .outOfBounds
      | some b => .ok { d with
          disk := Function.update d.disk b false
          lookedIdx := (d.lookedIdx + 1) % 2 ^ 16 }
  else .error .outOfBounds

/-! ## The device -/

/-- The status byte of the chain that starts at `head`, if it is a chain of three descriptors. -/
def statusOf (d : VirtioDriver β) (head : Nat) : Option DescId :=
  if h₀ : head < NUM then
    let desc₀ := d.desc ⟨head, h₀⟩
    if h₁ : desc₀.next < NUM then
      let desc₁ := d.desc ⟨desc₀.next, h₁⟩
      if h₂ : desc₁.next < NUM then
        let desc₂ := d.desc ⟨desc₁.next, h₂⟩
        if desc₀.flags &&& VRING_DESC_F_NEXT ≠ 0 ∧ desc₁.flags &&& VRING_DESC_F_NEXT ≠ 0 ∧
            desc₂.flags &&& VRING_DESC_F_NEXT = 0 then
          match desc₂.addr with
          | .status i => some i
          | _ => none
        else none
      else none
    else none
  else none

/-- The device is done with the chain that starts at `head`: it leaves the status 0 and says so in
`used`. -/
def post (d : VirtioDriver β) (head : Nat) : Option (VirtioDriver β) :=
  (d.statusOf head).map fun i => { d with
    info := Function.update d.info i { d.info i with status := 0 }
    usedRing := Function.update d.usedRing (d.usedIdx % NUM) head
    usedIdx := (d.usedIdx + 1) % 2 ^ 16 }

end VirtioDriver

/-! ## Callers, device and interrupts -/

/-- A request: its number, its three descriptors and its buffer. -/
structure DiskRequest (β : Type) where
  num : Nat
  idx₀ : DescId
  idx₁ : DescId
  idx₂ : DescId
  b : β

/-- Where a process is in `read_write`. -/
inductive CallerState (β : Type)
  | idle
  /-- It sleeps on `&free[0]`. -/
  | sleepFree (b : β) (blockno : Nat) (write : Bool)
  /-- It sleeps on its buffer. -/
  | sleepDisk (r : DiskRequest β)

/-- The driver with its callers and the device.  The numbers of the requests are not part of the code. -/
structure DiskSystem (ι β : Type) where
  driver : VirtioDriver β
  callers : ι → CallerState β
  /-- Who holds the sleep lock of a buffer. -/
  holder : β → Option ι
  /-- `handle_interrupt` runs. -/
  inInterrupt : Bool
  /-- How far the device has looked in `avail->ring`. -/
  takenIdx : Nat
  /-- The chains the device works on, with the numbers of the requests. -/
  taken : List (Nat × Nat)
  /-- The requests in `avail->ring`. -/
  availReq : Nat → Nat
  /-- The requests in `used->ring`. -/
  usedReq : Nat → Nat
  /-- The buffers of the requests made so far. -/
  issued : List β
  /-- The requests that the device has completed. -/
  posted : List Nat

/-- A step of a caller, of the device or of the interrupt handler. -/
inductive DiskAct (ι β : Type)
  /-- `read_write` is called. -/
  | call (p : ι) (b : β) (blockno : Nat) (write : Bool)
  /-- A process that sleeps on `&free[0]` runs again. -/
  | retry (p : ι)
  /-- A process that sleeps on its buffer runs again. -/
  | check (p : ι)
  /-- The device takes an entry of `avail`. -/
  | take
  /-- The device completes the chain in place `k` of those it works on. -/
  | post (k : Nat)
  /-- An interrupt arrives. -/
  | interrupt
  /-- A round of `handle_interrupt`. -/
  | handle
  /-- `handle_interrupt` returns. -/
  | iret

namespace DiskSystem

variable {ι β : Type} [DecidableEq ι] [DecidableEq β]

/-- No request has been made. -/
def init : DiskSystem ι β where
  driver := .init
  callers _ := .idle
  holder _ := none
  inInterrupt := false
  takenIdx := 0
  taken := []
  availReq _ := 0
  usedReq _ := 0
  issued := []
  posted := []

/-- The first section of `read_write`. -/
def request (s : DiskSystem ι β) (p : ι) (b : β) (blockno : Nat) (write : Bool) :
    Except Panic (DiskSystem ι β) :=
  match s.driver.alloc3Desc with
  | .error e => .error e
  | .ok (none, d) => .ok { s with
      driver := d
      callers := Function.update s.callers p (.sleepFree b blockno write) }
  | .ok (some (idx₀, idx₁, idx₂), d) => .ok { s with
      driver := (d.format idx₀ idx₁ idx₂ b blockno write).publish idx₀
      callers := Function.update s.callers p (.sleepDisk ⟨s.issued.length, idx₀, idx₁, idx₂, b⟩)
      availReq := Function.update s.availReq (s.driver.availIdx % NUM) s.issued.length
      issued := s.issued ++ [b] }

/-- One step.  A process calls `read_write` with the lock of its buffer held. -/
def step (s : DiskSystem ι β) : DiskAct ι β → Option (Except Panic (DiskSystem ι β))
  | .call p b blockno write =>
    if s.inInterrupt then none
    else
      match s.callers p, s.holder b with
      | .idle, none =>
        some (request { s with holder := Function.update s.holder b (some p) } p b blockno write)
      | _, _ => none
  | .retry p =>
    if s.inInterrupt then none
    else
      match s.callers p with
      | .sleepFree b blockno write => some (s.request p b blockno write)
      | _ => none
  | .check p =>
    if s.inInterrupt then none
    else
      match s.callers p with
      | .sleepDisk r =>
        if s.driver.disk r.b then some (.ok s)
        else some ((s.driver.finish r.idx₀).map fun d => { s with
          driver := d
          callers := Function.update s.callers p .idle
          holder := Function.update s.holder r.b none })
      | _ => none
  | .take =>
    if s.takenIdx = s.driver.availIdx then none
    else some (.ok { s with
      taken := s.taken ++ [(s.driver.availRing (s.takenIdx % NUM), s.availReq (s.takenIdx % NUM))]
      takenIdx := (s.takenIdx + 1) % 2 ^ 16 })
  | .post k =>
    match s.taken[k]? with
    | none => none
    | some (head, num) => (s.driver.post head).map fun d => .ok { s with
        driver := d
        taken := s.taken.eraseIdx k
        usedReq := Function.update s.usedReq (s.driver.usedIdx % NUM) num
        posted := s.posted ++ [num] }
  | .interrupt => if s.inInterrupt then none else some (.ok { s with inInterrupt := true })
  | .handle =>
    if s.inInterrupt ∧ s.driver.lookedIdx ≠ s.driver.usedIdx then
      some (s.driver.handle.map fun d => { s with driver := d })
    else none
  | .iret =>
    if s.inInterrupt ∧ s.driver.lookedIdx = s.driver.usedIdx then
      some (.ok { s with inInterrupt := false })
    else none

end DiskSystem

end Xv6pp
