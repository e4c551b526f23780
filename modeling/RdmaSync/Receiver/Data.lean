import RdmaSync.FileIO
import RdmaSync.Sums
import RdmaSync.Token
import RdmaSync.Receiver.Output

/-!
# Data — the token loop of the receiver (`receive_data`)

The receiver puts a file together from literal data and from blocks of a
basis file, read through the sliding window of `map_ptr`. In an in-place
update each request reads the file as it is by then, while the window
may still hold bytes from before.

The items are what `recv_token` returned before the end token. Outside
append mode the output starts at offset 0.
-/

namespace RdmaSync.Receiver

open Lib.Memory

/-- What `receive_data` gives up on. -/
inductive ReceiveError where
  | invalidBlockIndex (i : Int) (count : Nat)
  | noBasis
  | mapPtr
  | writeFailed (s : Out)
  deriving DecidableEq

/-- The text that goes with the exit; `map_ptr` prints its own. -/
def ReceiveError.message (fname who : String) : ReceiveError → Option String
  | .invalidBlockIndex i count =>
    some ("Invalid block index " ++ toString i ++
      " (count=" ++ toString count ++ ") [" ++ who ++ "]\n")
  | .noBasis => some ("got a block match with no basis file for " ++ fname ++ " [" ++ who ++ "]\n")
  | .mapPtr => none
  | .writeFailed _ => some ("write failed on " ++ fname)

/-- The arguments of `receive_data` and the header it reads. `basis` is the
file behind `fd_r`, `none` if that is the output file itself; `chop n`
cuts up the `read` calls of the `n`-th request. -/
structure Reception where
  head : SumHead
  sizeR : Nat
  basis : Option Bytes
  target : Target
  chop : Nat → Nat → Nat
  blength_le : head.blength ≤ 2 ^ 29

def Reception.basisFile (r : Reception) (s : Out) : Bytes := r.basis.getD s.bytes

/-- The arguments of its `map_file`. -/
def Reception.mapArgs (r : Reception) : MapArgs where
  amSender := false
  sourceIoMode := .cached
  syntheticFile := false
  diskReadSize := 0
  fileSize := r.sizeR
  readSize := max (r.head.blength * 2) (16 * 1024)
  blkSize := r.head.blength
  diskReadSize_le := Nat.zero_le _
  blkSize_le := r.blength_le
  readSize_le := .inl (by have := r.blength_le; omega)

/-- The state of the token loop: `summed` is what `sum_update` was given. -/
structure Data where
  rx : Receiving
  mapbuf : Option MapStruct
  requests : Nat
  summed : Bytes

def Data.start (r : Reception) (content : Bytes) : Data where
  rx := .start content 0
  mapbuf := if 0 < r.sizeR then some (mapFile r.mapArgs) else none
  requests := 0
  summed := []

def putData (r : Reception) (st : Data) (c : OutCall) : Except ReceiveError Data :=
  ((performCall r.target st.rx c).mapError .writeFailed).map fun rx =>
    { st with rx := rx, summed := st.summed ++ c.data }

def blockCall (t : Target) (offset offset2 : Nat) (map : Bytes) : OutCall :=
  if t.updatingBasisOrEquiv ∧ offset = offset2 then .skip map else .write map

/-- `map_ptr`, which returns nothing for an empty request. -/
def mapBlock (r : Reception) (st : Data) (m : MapStruct) (offset2 len : Nat) :
    Option (Bytes × MapStruct) :=
  if len = 0 then some ([], m)
  else
    match mapPtr ⟨r.basisFile st.rx.out, 4096⟩ m ⟨offset2, len, r.chop st.requests⟩ with
    | .ret pos m => some (slice m.p pos len, m)
    | _ => none

def receiveBlock (r : Reception) (st : Data) (i : Nat) : Except ReceiveError Data :=
  match st.mapbuf with
  | none => .error .noBasis
  | some m =>
    let offset2 := i * r.head.blength
    match mapBlock r st m offset2 (r.head.blockLen i) with
    | none => .error .mapPtr
    | some (map, m) =>
      putData r { st with mapbuf := some m, requests := st.requests + 1 }
        (blockCall r.target st.rx.offset offset2 map)

def receiveItem (r : Reception) (st : Data) : Received → Except ReceiveError Data
  | .literal data => putData r st (.write data)
  | .token t =>
    let i := -(t + 1)
    if i < 0 ∨ (r.head.count : Int) ≤ i then .error (.invalidBlockIndex i r.head.count)
    else receiveBlock r st i.toNat

/-- `receive_data`, onto a file with the given content: the file it leaves and
what the checksum was computed over. -/
def receiveData (r : Reception) (content : Bytes) (items : List Received) :
    Except ReceiveError (Out × Bytes) := do
  let st ← items.foldlM (receiveItem r) (.start r content)
  let out ← (emptyOutput r.target st.rx).mapError .writeFailed
  .ok (cutOutput r.target st.rx.offset out, st.summed)

/-! ## What a stream stands for -/

def tokenIndex (t : Int) : Nat := (-(t + 1)).toNat

def itemData (basis : Bytes) (head : SumHead) : Received → Bytes
  | .literal data => data
  | .token t => slice basis (tokenIndex t * head.blength) (head.blockLen (tokenIndex t))

def replay (basis : Bytes) (head : SumHead) (items : List Received) : Bytes :=
  items.flatMap (itemData basis head)

def itemCall (t : Target) (basis : Bytes) (head : SumHead) (offset : Nat) : Received → OutCall
  | .literal data => .write data
  | .token i => blockCall t offset (tokenIndex i * head.blength) (itemData basis head (.token i))

def itemCalls (t : Target) (basis : Bytes) (head : SumHead) :
    Nat → List Received → List OutCall
  | _, [] => []
  | offset, item :: items => itemCall t basis head offset item ::
      itemCalls t basis head (offset + (itemData basis head item).length) items

theorem itemCall_data (t : Target) (basis : Bytes) (head : SumHead) (offset : Nat)
    (item : Received) : (itemCall t basis head offset item).data = itemData basis head item := by
  cases item with
  | literal data => rfl
  | token i =>
    rw [itemCall, blockCall]
    split <;> rfl

theorem replay_cons (basis : Bytes) (head : SumHead) (item : Received) (items : List Received) :
    replay basis head (item :: items) = itemData basis head item ++ replay basis head items :=
  List.flatMap_cons

end RdmaSync.Receiver
