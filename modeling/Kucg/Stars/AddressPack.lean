import Mathlib.Tactic

/-! The packed address of a worker (`scp_address.c`).

    The packer groups the interfaces that can connect by memory domain and device, computes the size
    of the address, leaves room for one address entry for each *device*, and writes the devices
    behind it: flags and lengths share bytes, and the last element of a list has a flag of its own.
    Proved here: what is written is the list of the devices (`scpAddressPack_eq`), as long as the
    computed size says, and there are as many devices as interfaces if and only if no two of them
    share memory domain and device (`Gathered.length_eq_iff`). -/

namespace Kucg.Stars.Address

/-- A byte of a buffer; `none` where nothing is known of it: what `malloc` left, the padding of a
structure, or a byte of an address entry. -/
abbrev Cell := Option ℕ

/-- The bytes of a number, lowest first. -/
def leBytes (n x : ℕ) : List Cell := (List.range n).map fun k => some (x / 256 ^ k % 256)

@[simp] theorem length_leBytes (n x : ℕ) : (leBytes n x).length = n := by simp [leBytes]

/-! ### Interfaces and the worker -/

/-- `UCT_IFACE_FLAG_CONNECT_TO_IFACE`. -/
def connectToIface : ℕ := 2 ^ 40

/-- `UCT_IFACE_FLAG_CONNECT_TO_EP`. -/
def connectToEp : ℕ := 2 ^ 41

/-- `sct_iface_attr_t`, with the lengths of the addresses left to the interface. The doubles are
their bit patterns; `productZero` says that `bandwidth.dedicated * bandwidth.shared` is zero. -/
structure IfaceAttr where
  capFlags : ℕ
  eventFlags : ℕ
  overhead : ℕ
  dedicated : ℕ
  shared : ℕ
  productZero : Bool
  priority : ℕ
  latencyC : ℕ
  devNumPaths : ℕ
  deriving Inhabited

/-- `scp_worker_iface_t`, with the addresses its interface tells. -/
structure Iface where
  attr : IfaceAttr
  rscIndex : ℕ
  ifaceAddr : List ℕ
  deviceAddr : List ℕ
  deriving Inhabited

/-- `scp_worker_iface_can_connect`. -/
def Iface.canConnect (iface : Iface) : Bool :=
  iface.attr.capFlags &&& (connectToIface ||| connectToEp) != 0

/-- `scp_worker_t` with its context after the interfaces are selected. The bits of `tl_bitmap` are
listed from the lowest, as `ucs_for_each_bit` visits them; `ifaces` is in the order the sorting has
left. -/
structure Worker where
  tlBitmap : List ℕ
  mdIndex : ℕ → ℕ
  devName : ℕ → String
  mdAlloc : ℕ → Bool
  mdReg : ℕ → Bool
  ifaces : List Iface
  ascending : tlBitmap.Pairwise (· < ·)
  perm : (ifaces.map (·.rscIndex)).Perm tlBitmap

theorem Worker.length_ifaces (w : Worker) : w.ifaces.length = w.tlBitmap.length := by
  simpa using w.perm.length_eq

/-- `ucs_bitmap2idx`: the number of bits below. -/
def bitmap2idx (bitmap : List ℕ) (bit : ℕ) : ℕ := (bitmap.filter (· < bit)).length

/-- `scp_worker_iface`. -/
def Worker.iface (w : Worker) (rsc : ℕ) : Iface := w.ifaces.getD (bitmap2idx w.tlBitmap rsc) default

theorem bitmap2idx_getElem : ∀ {bits : List ℕ}, bits.Pairwise (· < ·) →
    ∀ {i rsc : ℕ}, bits[i]? = some rsc → bitmap2idx bits rsc = i
  | [], _, _, _, h => by simp at h
  | bit :: bits, hasc, 0, rsc, h => by
    obtain rfl : bit = rsc := by simpa using h
    have habove := (List.pairwise_cons.mp hasc).1
    have hnone : bits.filter (· < bit) = [] := by
      simp only [List.filter_eq_nil_iff, decide_eq_true_eq]
      intro b hb
      have := habove b hb
      omega
    simp [bitmap2idx, hnone]
  | bit :: bits, hasc, i + 1, rsc, h => by
    rw [List.pairwise_cons] at hasc
    have hrsc : bits[i]? = some rsc := by simpa using h
    have hlt : bit < rsc := hasc.1 rsc (List.mem_of_getElem? hrsc)
    have ih := bitmap2idx_getElem hasc.2 hrsc
    simpa [bitmap2idx, List.filter_cons, hlt] using ih

theorem Worker.iface_getElem (w : Worker) {i rsc : ℕ} {iface : Iface}
    (hr : w.tlBitmap[i]? = some rsc) (hi : w.ifaces[i]? = some iface) : w.iface rsc = iface := by
  rw [Worker.iface, bitmap2idx_getElem w.ascending hr, List.getD_eq_getElem?_getD, hi]
  rfl

/-- The resources whose interfaces can connect. -/
def Worker.connectable (w : Worker) : List ℕ := w.tlBitmap.filter fun r => (w.iface r).canConnect

/-! ### Gathering the devices -/

/-- `sizeof(scp_address_iface_attr_t)`. -/
def attrSize : ℕ := 64

/-- `sizeof(scp_address_entry_t)`. -/
def entrySize : ℕ := 40

/-- `sizeof(scp_unpacked_address_t)`. -/
def headSize : ℕ := 56

/-- `scp_address_packed_device_t`. -/
structure PackedDevice where
  devAddrLen : ℕ
  tlBitmap : List ℕ
  rscIndex : ℕ
  numPaths : ℕ
  tlAddrsSize : ℕ

/-- The device that `memset` leaves. -/
def PackedDevice.zero : PackedDevice := ⟨0, [], 0, 0, 0⟩

/-- The memory domain and the device that `scp_address_get_device` compares. -/
def Worker.key (w : Worker) (rsc : ℕ) : ℕ × String := (w.mdIndex rsc, w.devName rsc)

/-- `scp_address_get_device`: the devices, and the number of the one found or added. -/
def getDevice (w : Worker) (rsc : ℕ) (devices : List PackedDevice) : ℕ × List PackedDevice :=
  match devices.findIdx? fun dev => w.key rsc == w.key dev.rscIndex with
  | some idx => (idx, devices)
  | none => (devices.length, devices ++ [PackedDevice.zero])

/-- What `scp_address_gather_devices` adds to a device for one of its interfaces. -/
def PackedDevice.add (dev : PackedDevice) (iface : Iface) (rsc : ℕ) : PackedDevice where
  devAddrLen := iface.deviceAddr.length
  tlBitmap := dev.tlBitmap ++ [rsc]
  rscIndex := rsc
  numPaths := iface.attr.devNumPaths
  tlAddrsSize := dev.tlAddrsSize + 1 + iface.ifaceAddr.length + attrSize

/-- One pass of `scp_address_gather_devices`; `none` is an error. -/
def gatherStep (w : Worker) (devices : List PackedDevice) (rsc : ℕ) :
    Option (List PackedDevice) :=
  if (w.iface rsc).canConnect then
    let (idx, devices) := getDevice w rsc devices
    if 255 < (w.iface rsc).attr.devNumPaths then none
    else some (devices.modify idx (·.add (w.iface rsc) rsc))
  else some devices

/-- `scp_address_gather_devices`. -/
def scpAddressGatherDevices (w : Worker) : Option (List PackedDevice) :=
  w.tlBitmap.foldlM (gatherStep w) []

/-! ### Sizes -/

/-- The offset `scp_address_packed_size` leaves for the entries. -/
def packedOffset (numDevices : ℕ) : ℕ := headSize + numDevices * entrySize

/-- The bytes of one device in `scp_address_packed_size`. -/
def PackedDevice.size (dev : PackedDevice) : ℕ :=
  1 + 1 + dev.devAddrLen + (if 1 < dev.numPaths then 1 else 0) + dev.tlAddrsSize

/-- `scp_address_packed_size`. -/
def scpAddressPackedSize (devices : List PackedDevice) : ℕ :=
  if devices.length = 0 then packedOffset 0
  else packedOffset devices.length + (devices.map PackedDevice.size).sum

/-! ### Packing -/

/-- `SCP_ADDRESS_FLAG_LAST`. -/
def flagLast : ℕ := 0x80

/-- `SCP_ADDRESS_FLAG_HAVE_PATHS`. -/
def flagHavePaths : ℕ := 0x40

/-- `SCP_ADDRESS_FLAG_LEN_MASK`. -/
def flagLenMask : ℕ := 0x3f

/-- `SCP_ADDRESS_FLAG_MD_EMPTY_DEV`. -/
def flagMdEmptyDev : ℕ := 0x80

/-- `SCP_ADDRESS_FLAG_MD_ALLOC`. -/
def flagMdAlloc : ℕ := 0x40

/-- `SCP_ADDRESS_FLAG_MD_REG`. -/
def flagMdReg : ℕ := 0x20

/-- `SCP_ADDRESS_FLAG_MD_MASK`. -/
def flagMdMask : ℕ := 0x1f

/-- The fields of `scp_address_iface_attr_t` that come from the interface, up to `lat_ovh`. -/
def IfaceAttr.cells (attr : IfaceAttr) : List Cell :=
  leBytes 8 attr.capFlags ++ leBytes 8 attr.eventFlags ++ leBytes 8 attr.overhead ++
    leBytes 8 attr.dedicated ++ leBytes 8 attr.shared ++ leBytes 4 attr.priority ++
    List.replicate 4 none ++ leBytes 8 attr.latencyC

/-- What `scp_address_pack_iface_attr` writes: behind the attributes stand `dst_rsc_index` and
padding. -/
def packIfaceAttr (attr : IfaceAttr) (rsc : ℕ) : List Cell :=
  attr.cells ++ some rsc :: List.replicate 7 none

@[simp] theorem length_packIfaceAttr (attr : IfaceAttr) (rsc : ℕ) :
    (packIfaceAttr attr rsc).length = attrSize := by simp [packIfaceAttr, IfaceAttr.cells, attrSize]

/-- `scp_address_pack_iface`: the bytes written so far, and where the length of the interface
address stands. `none` is an error or a failed assertion. -/
def packIface (w : Worker) (rsc : ℕ) (buf : List Cell) : Option (List Cell × ℕ) :=
  if !(w.iface rsc).canConnect then none
  else if !(w.iface rsc).attr.productZero then none
  else
    let ptr := buf ++ packIfaceAttr (w.iface rsc).attr rsc
    if flagLenMask < (w.iface rsc).ifaceAddr.length then none
    else some (ptr ++ [some (w.iface rsc).ifaceAddr.length] ++ (w.iface rsc).ifaceAddr.map some,
      ptr.length)

/-- The loop over the interfaces of a device, with `last_tl_ptr`. -/
def packIfaces (w : Worker) : List ℕ → List Cell → Option ℕ → Option (List Cell × Option ℕ)
  | [], buf, last => some (buf, last)
  | rsc :: rscs, buf, _ => do
    let (buf, last) ← packIface w rsc buf
    packIfaces w rscs buf (some last)

/-- What `scp_address_pack_device` writes in front of the interfaces; `isLast` is
`dev == last_dev`. -/
def packDeviceHead (w : Worker) (dev : PackedDevice) (devTlBitmap : List ℕ) (isLast : Bool) :
    List Cell :=
  let mdIdx := w.mdIndex dev.rscIndex
  let mdByte := mdIdx ||| (if devTlBitmap = [] then flagMdEmptyDev else 0) |||
    (if w.mdAlloc mdIdx then flagMdAlloc else 0) ||| (if w.mdReg mdIdx then flagMdReg else 0)
  let lenByte := (if isLast then flagLast else 0) ||| dev.devAddrLen
  [some mdByte] ++
    (if 1 < dev.numPaths then [some (lenByte ||| flagHavePaths), some dev.numPaths]
      else [some lenByte]) ++
    (w.iface dev.rscIndex).deviceAddr.map some

/-- `scp_address_pack_device`, with its assertions. -/
def packDevice (w : Worker) (dev : PackedDevice) (isLast : Bool) (buf : List Cell) :
    Option (List Cell) :=
  let devTlBitmap := w.tlBitmap.filter (· ∈ dev.tlBitmap)
  if w.mdIndex dev.rscIndex ≤ flagMdMask ∧ dev.devAddrLen ≤ flagLenMask ∧
      1 ≤ dev.numPaths ∧ dev.numPaths ≤ 255 then
    match packIfaces w devTlBitmap (buf ++ packDeviceHead w dev devTlBitmap isLast) none with
    | some (buf, some last) => some (buf.modify last (Option.map (· ||| flagLast)))
    | _ => none
  else none

/-- `scp_address_do_pack`. -/
def doPack (w : Worker) : List PackedDevice → List Cell → Option (List Cell)
  | [], buf => some buf
  | dev :: devs, buf => do doPack w devs (← packDevice w dev devs.isEmpty buf)

/-- A packed address: the count in its head, the size of its buffer, and what is written into it
from the packed offset on. The other fields of the head are not read here. -/
structure Packed where
  addressCount : ℕ
  size : ℕ
  cells : List Cell

/-- `scp_address_pack`. -/
def scpAddressPack (w : Worker) : Option Packed := do
  let devices ← scpAddressGatherDevices w
  let cells ← doPack w devices []
  some ⟨devices.length, scpAddressPackedSize devices, cells⟩

/-! ### The devices as they are gathered -/

/-- A pass of the gathering for an interface that can connect and is not refused. -/
def addDevice (w : Worker) (devices : List PackedDevice) (rsc : ℕ) : List PackedDevice :=
  (getDevice w rsc devices).2.modify (getDevice w rsc devices).1 (·.add (w.iface rsc) rsc)

theorem gather_eq (w : Worker) : ∀ (rscs : List ℕ) (devices : List PackedDevice)
    {res : List PackedDevice}, rscs.foldlM (gatherStep w) devices = some res →
    (rscs.filter fun r => (w.iface r).canConnect).foldl (addDevice w) devices = res
  | [], devices, res, h => by simpa using h
  | rsc :: rscs, devices, res, h => by
    rw [List.foldlM_cons, Option.bind_eq_bind, Option.bind_eq_some_iff] at h
    obtain ⟨next, hstep, hrest⟩ := h
    have ih := gather_eq w rscs next hrest
    unfold gatherStep at hstep
    split_ifs at hstep with hconn hpaths
    · rw [List.filter_cons_of_pos (by simpa using hconn), List.foldl_cons]
      rw [Option.some.injEq] at hstep
      rw [addDevice, hstep]
      exact ih
    · rw [List.filter_cons_of_neg (by simpa using hconn), Option.some.inj hstep]
      exact ih

/-- A pass adds the interface to the first device with its key, or adds a device. -/
theorem addDevice_cases (w : Worker) (devices : List PackedDevice) (rsc : ℕ) :
    (∃ pre dev post, devices = pre ++ dev :: post ∧ w.key rsc = w.key dev.rscIndex ∧
      addDevice w devices rsc = pre ++ dev.add (w.iface rsc) rsc :: post) ∨
    ((∀ dev ∈ devices, w.key rsc ≠ w.key dev.rscIndex) ∧
      addDevice w devices rsc = devices ++ [PackedDevice.zero.add (w.iface rsc) rsc]) := by
  unfold addDevice getDevice
  cases hfind : devices.findIdx? fun dev => w.key rsc == w.key dev.rscIndex with
  | some idx =>
    left
    obtain ⟨hlt, hkey, -⟩ := List.findIdx?_eq_some_iff_getElem.mp hfind
    refine ⟨devices.take idx, devices[idx], devices.drop (idx + 1), ?_, by simpa using hkey, ?_⟩
    · rw [← List.drop_eq_getElem_cons hlt, List.take_append_drop]
    · dsimp only
      rw [List.modify_eq_take_cons_drop hlt]
  | none =>
    right
    rw [List.findIdx?_eq_none_iff] at hfind
    refine ⟨fun dev hdev => by simpa using hfind dev hdev, ?_⟩
    dsimp only
    rw [List.modify_eq_take_cons_drop (by simp)]
    simp

/-- The devices hold the resources that have been visited: each device those of one key, in
ascending order, with what the last of them said. -/
structure Gathered (w : Worker) (rscs : List ℕ) (devices : List PackedDevice) : Prop where
  sublist : ∀ dev ∈ devices, dev.tlBitmap.Sublist rscs
  rscIndex_mem : ∀ dev ∈ devices, dev.rscIndex ∈ dev.tlBitmap
  devAddrLen : ∀ dev ∈ devices, dev.devAddrLen = (w.iface dev.rscIndex).deviceAddr.length
  tlAddrsSize : ∀ dev ∈ devices,
    dev.tlAddrsSize = (dev.tlBitmap.map fun r => (w.iface r).ifaceAddr.length + 65).sum
  keys_nodup : (devices.map fun dev => w.key dev.rscIndex).Nodup
  keys : (devices.map fun dev => w.key dev.rscIndex).toFinset = (rscs.map w.key).toFinset
  count : (devices.map fun dev => dev.tlBitmap.length).sum = rscs.length

theorem gathered_nil (w : Worker) : Gathered w [] [] := by
  constructor <;> simp

theorem Gathered.snoc {w : Worker} {rscs : List ℕ} {devices : List PackedDevice} (rsc : ℕ)
    (h : Gathered w rscs devices) : Gathered w (rscs ++ [rsc]) (addDevice w devices rsc) := by
  rcases addDevice_cases w devices rsc with ⟨pre, dev, post, rfl, hkey, heq⟩ | ⟨hnew, heq⟩
  · -- the device is there already: only its own fields change
    have hmem : dev ∈ pre ++ dev :: post := by simp
    have hother : ∀ d, d ∈ pre ∨ d ∈ post → d ∈ pre ++ dev :: post := by
      intro d hd
      simp only [List.mem_append, List.mem_cons]
      tauto
    have hkeys : ((pre ++ dev.add (w.iface rsc) rsc :: post).map fun d => w.key d.rscIndex) =
        (pre ++ dev :: post).map fun d => w.key d.rscIndex := by
      simp [PackedDevice.add, hkey]
    rw [heq]
    refine ⟨?_, ?_, ?_, ?_, ?_, ?_, ?_⟩
    · intro d hd
      simp only [List.mem_append, List.mem_cons] at hd
      rcases hd with hd | rfl | hd
      · exact (h.sublist d (hother d (Or.inl hd))).trans (List.sublist_append_left _ _)
      · exact (h.sublist dev hmem).append (List.Sublist.refl _)
      · exact (h.sublist d (hother d (Or.inr hd))).trans (List.sublist_append_left _ _)
    · intro d hd
      simp only [List.mem_append, List.mem_cons] at hd
      rcases hd with hd | rfl | hd
      · exact h.rscIndex_mem d (hother d (Or.inl hd))
      · simp [PackedDevice.add]
      · exact h.rscIndex_mem d (hother d (Or.inr hd))
    · intro d hd
      simp only [List.mem_append, List.mem_cons] at hd
      rcases hd with hd | rfl | hd
      · exact h.devAddrLen d (hother d (Or.inl hd))
      · rfl
      · exact h.devAddrLen d (hother d (Or.inr hd))
    · intro d hd
      simp only [List.mem_append, List.mem_cons] at hd
      rcases hd with hd | rfl | hd
      · exact h.tlAddrsSize d (hother d (Or.inl hd))
      · have hold := h.tlAddrsSize dev hmem
        simp only [PackedDevice.add, attrSize, List.map_append, List.map_cons, List.map_nil,
          List.sum_append, List.sum_cons, List.sum_nil]
        omega
      · exact h.tlAddrsSize d (hother d (Or.inr hd))
    · rw [hkeys]
      exact h.keys_nodup
    · have hin : w.key rsc ∈ (rscs.map w.key).toFinset := by
        rw [← h.keys, List.mem_toFinset, List.mem_map]
        exact ⟨dev, hmem, hkey.symm⟩
      rw [hkeys, h.keys, List.map_append, List.toFinset_append, eq_comm, Finset.union_eq_left]
      intro k hk
      obtain rfl : k = w.key rsc := by simpa using hk
      exact hin
    · have hcount := h.count
      simp only [List.map_append, List.map_cons, List.sum_append, List.sum_cons,
        PackedDevice.add, List.length_append, List.length_cons, List.length_nil] at hcount ⊢
      omega
  · -- a device of its own, with a key that no other device has
    have hold : ∀ d ∈ devices, d.tlBitmap.Sublist (rscs ++ [rsc]) := fun d hd =>
      (h.sublist d hd).trans (List.sublist_append_left _ _)
    rw [heq]
    refine ⟨?_, ?_, ?_, ?_, ?_, ?_, ?_⟩
    · intro d hd
      rcases List.mem_append.mp hd with hd | hd
      · exact hold d hd
      · obtain rfl := List.mem_singleton.mp hd
        exact List.sublist_append_right rscs [rsc]
    · intro d hd
      rcases List.mem_append.mp hd with hd | hd
      · exact h.rscIndex_mem d hd
      · obtain rfl := List.mem_singleton.mp hd
        simp [PackedDevice.add]
    · intro d hd
      rcases List.mem_append.mp hd with hd | hd
      · exact h.devAddrLen d hd
      · obtain rfl := List.mem_singleton.mp hd
        rfl
    · intro d hd
      rcases List.mem_append.mp hd with hd | hd
      · exact h.tlAddrsSize d hd
      · obtain rfl := List.mem_singleton.mp hd
        simp only [PackedDevice.add, PackedDevice.zero, attrSize, List.nil_append, List.map_cons,
          List.map_nil, List.sum_cons, List.sum_nil]
        omega
    · rw [List.map_append, List.nodup_append]
      refine ⟨h.keys_nodup, by simp, ?_⟩
      intro a ha b hb
      obtain ⟨d, hd, rfl⟩ := List.mem_map.mp ha
      obtain rfl : b = w.key rsc := by simpa [PackedDevice.add] using hb
      exact (hnew d hd).symm
    · rw [List.map_append, List.map_append, List.toFinset_append, List.toFinset_append, h.keys]
      rfl
    · have hcount := h.count
      simp only [List.map_append, List.map_cons, List.map_nil, List.sum_append, List.sum_cons,
        List.sum_nil, PackedDevice.add, PackedDevice.zero, List.length_append, List.length_cons,
        List.length_nil] at hcount ⊢
      omega

theorem gathered_foldl (w : Worker) (rscs : List ℕ) :
    Gathered w rscs (rscs.foldl (addDevice w) []) := by
  induction rscs using List.reverseRecOn with
  | nil => exact gathered_nil w
  | append_singleton rscs rsc ih =>
    rw [List.foldl_append, List.foldl_cons, List.foldl_nil]
    exact ih.snoc rsc

/-- There are as many devices as resources if and only if no two resources share a device. -/
theorem Gathered.length_eq_iff {w : Worker} {rscs : List ℕ} {devices : List PackedDevice}
    (h : Gathered w rscs devices) : devices.length = rscs.length ↔ (rscs.map w.key).Nodup := by
  have hcard : devices.length = (rscs.map w.key).toFinset.card := by
    have hd := List.toFinset_card_of_nodup h.keys_nodup
    rw [List.length_map] at hd
    rw [← hd, h.keys]
  have hiff := @Multiset.toFinset_card_eq_card_iff_nodup _ _ (Multiset.ofList (rscs.map w.key))
  rw [Multiset.coe_nodup, Multiset.coe_card, List.length_map] at hiff
  rw [hcard]
  exact hiff

/-- Where no two resources share a device, each has its own, in the order of the resources. -/
theorem foldl_addDevice_of_nodup (w : Worker) (rscs : List ℕ) (h : (rscs.map w.key).Nodup) :
    rscs.foldl (addDevice w) [] = rscs.map fun r => PackedDevice.zero.add (w.iface r) r := by
  induction rscs using List.reverseRecOn with
  | nil => rfl
  | append_singleton rscs rsc ih =>
    rw [List.map_append, List.nodup_append] at h
    obtain ⟨hold, -, hnew⟩ := h
    rw [List.foldl_append, List.foldl_cons, List.foldl_nil, ih hold, List.map_append]
    rcases addDevice_cases w (rscs.map fun r => PackedDevice.zero.add (w.iface r) r) rsc with
      ⟨pre, dev, post, heq, hkey, -⟩ | ⟨-, heq⟩
    · exfalso
      have hmem : dev ∈ rscs.map fun r => PackedDevice.zero.add (w.iface r) r := by simp [heq]
      obtain ⟨r, hr, rfl⟩ := List.mem_map.mp hmem
      exact hnew (w.key r) (List.mem_map_of_mem hr) (w.key rsc) (by simp) hkey.symm
    · rw [heq]
      rfl

/-! ### What is written -/

/-- An interface as it is written: the attributes, and the address behind its length. -/
structure IfaceChunk where
  attr : List Cell
  addr : List ℕ

/-- The bytes of an interface. -/
def IfaceChunk.cells (c : IfaceChunk) (isLast : Bool) : List Cell :=
  c.attr ++ some (c.addr.length ||| if isLast then flagLast else 0) :: c.addr.map some

/-- The bytes of the interfaces of a device. -/
def ifacesCells : List IfaceChunk → List Cell
  | [] => []
  | c :: cs => c.cells cs.isEmpty ++ ifacesCells cs

/-- A device as it is written. -/
structure DeviceChunk where
  mdIndex : ℕ
  alloc : Bool
  reg : Bool
  numPaths : ℕ
  addr : List ℕ
  ifaces : List IfaceChunk

/-- The byte of the memory domain. -/
def DeviceChunk.mdByte (d : DeviceChunk) : ℕ :=
  d.mdIndex ||| (if d.alloc then flagMdAlloc else 0) ||| (if d.reg then flagMdReg else 0)

/-- The length of the device address, with the flag of the last device. -/
def DeviceChunk.lenByte (d : DeviceChunk) (isLast : Bool) : ℕ :=
  (if isLast then flagLast else 0) ||| d.addr.length

/-- The bytes of a device in front of its interfaces. -/
def DeviceChunk.head (d : DeviceChunk) (isLast : Bool) : List Cell :=
  [some d.mdByte] ++
    (if 1 < d.numPaths then [some (d.lenByte isLast ||| flagHavePaths), some d.numPaths]
      else [some (d.lenByte isLast)]) ++
    d.addr.map some

/-- The bytes of a device. -/
def DeviceChunk.cells (d : DeviceChunk) (isLast : Bool) : List Cell :=
  d.head isLast ++ ifacesCells d.ifaces

/-- The bytes of the devices. -/
def devicesCells : List DeviceChunk → List Cell
  | [] => []
  | d :: ds => d.cells ds.isEmpty ++ devicesCells ds

/-- An interface that the packer accepts. -/
structure IfaceChunk.Ok (c : IfaceChunk) : Prop where
  attr : c.attr.length = attrSize
  addr : c.addr.length ≤ flagLenMask

/-- A device that the packer accepts. -/
structure DeviceChunk.Ok (d : DeviceChunk) : Prop where
  mdIndex : d.mdIndex ≤ flagMdMask
  addr : d.addr.length ≤ flagLenMask
  numPaths : 1 ≤ d.numPaths ∧ d.numPaths ≤ 255
  ifaces_ne_nil : d.ifaces ≠ []
  ifaces : ∀ c ∈ d.ifaces, c.Ok

/-- How a resource is written. -/
def Worker.ifaceChunk (w : Worker) (rsc : ℕ) : IfaceChunk :=
  ⟨packIfaceAttr (w.iface rsc).attr rsc, (w.iface rsc).ifaceAddr⟩

/-- How a device is written. -/
def Worker.deviceChunk (w : Worker) (dev : PackedDevice) : DeviceChunk where
  mdIndex := w.mdIndex dev.rscIndex
  alloc := w.mdAlloc (w.mdIndex dev.rscIndex)
  reg := w.mdReg (w.mdIndex dev.rscIndex)
  numPaths := dev.numPaths
  addr := (w.iface dev.rscIndex).deviceAddr
  ifaces := dev.tlBitmap.map w.ifaceChunk

theorem packIface_eq {w : Worker} {rsc : ℕ} {buf : List Cell} {res : List Cell × ℕ}
    (h : packIface w rsc buf = some res) :
    (w.ifaceChunk rsc).Ok ∧
      res = (buf ++ (w.ifaceChunk rsc).cells false, buf.length + attrSize) := by
  unfold packIface at h
  split_ifs at h with hconn hband hlen
  refine ⟨⟨length_packIfaceAttr _ _, Nat.le_of_not_lt hlen⟩, ?_⟩
  rw [← Option.some.inj h]
  simp [IfaceChunk.cells, Worker.ifaceChunk, packIfaceAttr, IfaceAttr.cells, attrSize]

/-- The loop writes the interfaces without a last flag; it ends with the place of the last
length. -/
theorem packIfaces_eq {w : Worker} : ∀ (rscs : List ℕ) {buf : List Cell} {last : Option ℕ}
    {res : List Cell × Option ℕ}, packIfaces w rscs buf last = some res →
    (∀ r ∈ rscs, (w.ifaceChunk r).Ok) ∧
      res.1 = buf ++ rscs.flatMap (fun r => (w.ifaceChunk r).cells false) ∧
      (rscs = [] → res.2 = last) ∧
      ∀ front r, rscs = front ++ [r] → res.2 = some ((buf ++ front.flatMap
        fun r => (w.ifaceChunk r).cells false).length + attrSize)
  | [], buf, last, res, h => by
    obtain rfl : (buf, last) = res := by simpa [packIfaces] using h
    refine ⟨by simp, by simp, fun _ => rfl, fun front r hfront => ?_⟩
    exact absurd hfront.symm (by simp)
  | rsc :: rscs, buf, last, res, h => by
    rw [packIfaces, Option.bind_eq_bind, Option.bind_eq_some_iff] at h
    obtain ⟨mid, hone, hrest⟩ := h
    obtain ⟨hok, rfl⟩ := packIface_eq hone
    obtain ⟨hoks, hbuf, hnil, hlast⟩ := packIfaces_eq rscs hrest
    refine ⟨?_, ?_, by simp, ?_⟩
    · intro r hr
      rcases List.mem_cons.mp hr with rfl | hr
      · exact hok
      · exact hoks r hr
    · rw [hbuf, List.flatMap_cons, List.append_assoc]
    · intro front r hfront
      cases front with
      | nil =>
        obtain ⟨rfl, rfl⟩ : rsc = r ∧ rscs = [] := by simpa using hfront
        simpa using hnil rfl
      | cons first front =>
        obtain ⟨rfl, rfl⟩ : rsc = first ∧ rscs = front ++ [r] := by simpa using hfront
        rw [hlast front r rfl, List.flatMap_cons, List.append_assoc]

theorem ifacesCells_append_singleton (cs : List IfaceChunk) (c : IfaceChunk) :
    ifacesCells (cs ++ [c]) = cs.flatMap (·.cells false) ++ c.cells true := by
  induction cs with
  | nil => simp [ifacesCells]
  | cons d cs ih =>
    have hmore : (cs ++ [c]).isEmpty = false := by simp
    rw [List.cons_append, ifacesCells, ih, hmore, List.flatMap_cons, List.append_assoc]

theorem modify_append_cons (front : List Cell) (a : Cell) (back : List Cell) (f : Cell → Cell) :
    (front ++ a :: back).modify front.length f = front ++ f a :: back := by
  rw [List.modify_eq_take_cons_drop (by simp)]
  simp

/-- Setting the flag at the place of the last length marks the last interface. -/
theorem modify_last (buf : List Cell) (cs : List IfaceChunk) (c : IfaceChunk)
    (hattr : c.attr.length = attrSize) :
    (buf ++ (cs ++ [c]).flatMap (·.cells false)).modify
      ((buf ++ cs.flatMap (·.cells false)).length + attrSize) (Option.map (· ||| flagLast)) =
    buf ++ ifacesCells (cs ++ [c]) := by
  have hsplit : buf ++ (cs ++ [c]).flatMap (·.cells false) =
      (buf ++ cs.flatMap (·.cells false) ++ c.attr) ++ some c.addr.length :: c.addr.map some := by
    simp [IfaceChunk.cells]
  have hplace : (buf ++ cs.flatMap (·.cells false)).length + attrSize =
      ((buf ++ cs.flatMap (·.cells false)) ++ c.attr).length := by
    simp only [List.length_append, hattr]
  rw [hsplit, hplace, modify_append_cons, ifacesCells_append_singleton]
  simp [IfaceChunk.cells]

theorem filter_mem_of_sublist {s l : List ℕ} (h : s.Sublist l) (hl : l.Nodup) :
    l.filter (· ∈ s) = s := by
  induction h with
  | slnil => rfl
  | cons a h ih =>
    rw [List.nodup_cons] at hl
    rw [List.filter_cons_of_neg (by simpa using fun ha => hl.1 (h.subset ha)), ih hl.2]
  | @cons_cons s l a h ih =>
    rw [List.nodup_cons] at hl
    rw [List.filter_cons_of_pos (by simp)]
    congr 1
    rw [← ih hl.2]
    apply List.filter_congr
    intro x hx
    have hne : x ≠ a := fun hxa => hl.1 (hxa ▸ hx)
    rw [ih hl.2]
    simp [hne]

theorem packDeviceHead_eq {w : Worker} {dev : PackedDevice} {bits : List ℕ} (isLast : Bool)
    (hbits : bits ≠ []) (hlen : dev.devAddrLen = (w.iface dev.rscIndex).deviceAddr.length) :
    packDeviceHead w dev bits isLast = (w.deviceChunk dev).head isLast := by
  simp only [packDeviceHead, DeviceChunk.head, DeviceChunk.mdByte, DeviceChunk.lenByte,
    Worker.deviceChunk, if_neg hbits, hlen, Nat.or_zero]
  rfl

/-- A device of the worker is written as its chunk, behind what is there. -/
theorem packDevice_eq {w : Worker} {dev : PackedDevice} {isLast : Bool} {buf res : List Cell}
    (hsub : dev.tlBitmap.Sublist w.tlBitmap) (hmem : dev.rscIndex ∈ dev.tlBitmap)
    (hlen : dev.devAddrLen = (w.iface dev.rscIndex).deviceAddr.length)
    (h : packDevice w dev isLast buf = some res) :
    (w.deviceChunk dev).Ok ∧ res = buf ++ (w.deviceChunk dev).cells isLast := by
  have hne : dev.tlBitmap ≠ [] := List.ne_nil_of_mem hmem
  have hbits : w.tlBitmap.filter (· ∈ dev.tlBitmap) = dev.tlBitmap :=
    filter_mem_of_sublist hsub (w.ascending.imp ne_of_lt)
  rw [packDevice, hbits, packDeviceHead_eq isLast hne hlen] at h
  split_ifs at h with hok
  obtain ⟨hmd, haddr, hpaths⟩ := hok
  split at h
  · rename_i buf' last hifaces
    obtain ⟨hoks, hbuf, -, hlast⟩ := packIfaces_eq _ hifaces
    refine ⟨⟨hmd, ?_, hpaths, ?_, ?_⟩, ?_⟩
    · rw [hlen] at haddr
      exact haddr
    · simpa [Worker.deviceChunk] using hne
    · intro c hc
      obtain ⟨r, hr, rfl⟩ := List.mem_map.mp hc
      exact hoks r hr
    · -- the flag goes to the last of the lengths
      obtain ⟨front, r, hfront⟩ := (List.eq_nil_or_concat dev.tlBitmap).resolve_left hne
      rw [List.concat_eq_append] at hfront
      have hlast := hlast front r hfront
      have hmod := modify_last (buf ++ (w.deviceChunk dev).head isLast) (front.map w.ifaceChunk)
        (w.ifaceChunk r) (length_packIfaceAttr _ _)
      rw [← List.map_singleton, ← List.map_append, List.flatMap_map, List.flatMap_map, ← hfront]
        at hmod
      rw [Option.some.injEq] at h hlast
      dsimp only at hbuf
      rw [← h, hbuf, hlast, hmod, DeviceChunk.cells, List.append_assoc]
      rfl
  · exact absurd h (by simp)

/-- The devices are written one behind the other, the last one with its flag. -/
theorem doPack_eq {w : Worker} {rscs : List ℕ} (hrscs : rscs.Sublist w.tlBitmap) :
    ∀ {devs : List PackedDevice} {buf res : List Cell},
      (∀ dev ∈ devs, dev.tlBitmap.Sublist rscs ∧ dev.rscIndex ∈ dev.tlBitmap ∧
        dev.devAddrLen = (w.iface dev.rscIndex).deviceAddr.length) →
      doPack w devs buf = some res →
      (∀ dev ∈ devs, (w.deviceChunk dev).Ok) ∧
        res = buf ++ devicesCells (devs.map w.deviceChunk)
  | [], buf, res, _, h => by
    obtain rfl : buf = res := by simpa [doPack] using h
    simp [devicesCells]
  | dev :: devs, buf, res, hdevs, h => by
    rw [doPack, Option.bind_eq_bind, Option.bind_eq_some_iff] at h
    obtain ⟨mid, hone, hrest⟩ := h
    obtain ⟨hsub, hmem, hlen⟩ := hdevs dev (by simp)
    obtain ⟨hok, rfl⟩ := packDevice_eq (hsub.trans hrscs) hmem hlen hone
    obtain ⟨hoks, rfl⟩ := doPack_eq hrscs (fun d hd => hdevs d (by simp [hd])) hrest
    refine ⟨?_, ?_⟩
    · intro d hd
      rcases List.mem_cons.mp hd with rfl | hd
      · exact hok
      · exact hoks d hd
    · rw [List.map_cons, devicesCells, List.append_assoc, List.isEmpty_map]

/-! ### The computed size -/

theorem IfaceChunk.Ok.length_cells {c : IfaceChunk} (h : c.Ok) (isLast : Bool) :
    (c.cells isLast).length = c.addr.length + 65 := by
  simp only [IfaceChunk.cells, List.length_append, List.length_cons, List.length_map, h.attr,
    attrSize]
  omega

theorem length_ifacesCells : ∀ {cs : List IfaceChunk}, (∀ c ∈ cs, c.Ok) →
    (ifacesCells cs).length = (cs.map fun c => c.addr.length + 65).sum
  | [], _ => rfl
  | c :: cs, h => by
    rw [ifacesCells, List.length_append, (h c (by simp)).length_cells,
      length_ifacesCells fun d hd => h d (by simp [hd]), List.map_cons, List.sum_cons]

theorem DeviceChunk.length_head (d : DeviceChunk) (isLast : Bool) :
    (d.head isLast).length = 1 + 1 + d.addr.length + if 1 < d.numPaths then 1 else 0 := by
  unfold DeviceChunk.head
  split_ifs <;> simp <;> omega

/-- The size of a device is the number of its bytes. -/
theorem length_cells_deviceChunk {w : Worker} {dev : PackedDevice} (isLast : Bool)
    (hlen : dev.devAddrLen = (w.iface dev.rscIndex).deviceAddr.length)
    (hsize : dev.tlAddrsSize = (dev.tlBitmap.map fun r => (w.iface r).ifaceAddr.length + 65).sum)
    (hok : (w.deviceChunk dev).Ok) :
    ((w.deviceChunk dev).cells isLast).length = dev.size := by
  have hifaces := length_ifacesCells hok.ifaces
  have hsum : ((w.deviceChunk dev).ifaces.map fun c => c.addr.length + 65).sum =
      dev.tlAddrsSize := by
    rw [hsize]
    simp [Worker.deviceChunk, Worker.ifaceChunk, Function.comp_def]
  rw [DeviceChunk.cells, List.length_append, hifaces, hsum, DeviceChunk.length_head,
    PackedDevice.size, hlen]
  rfl

theorem length_devicesCells {w : Worker} : ∀ {devs : List PackedDevice},
    (∀ dev ∈ devs, dev.devAddrLen = (w.iface dev.rscIndex).deviceAddr.length ∧
      dev.tlAddrsSize = (dev.tlBitmap.map fun r => (w.iface r).ifaceAddr.length + 65).sum ∧
      (w.deviceChunk dev).Ok) →
    (devicesCells (devs.map w.deviceChunk)).length = (devs.map PackedDevice.size).sum
  | [], _ => rfl
  | dev :: devs, h => by
    obtain ⟨hlen, hsize, hok⟩ := h dev (by simp)
    rw [List.map_cons, devicesCells, List.length_append, length_cells_deviceChunk _ hlen hsize hok,
      length_devicesCells fun d hd => h d (by simp [hd]), List.map_cons, List.sum_cons]

/-- What a packed address is: the devices as they are gathered, one behind the other, in a buffer of
exactly the size of the entries and the devices. -/
theorem scpAddressPack_eq {w : Worker} {p : Packed} (h : scpAddressPack w = some p) :
    ∃ devs, devs = w.connectable.foldl (addDevice w) [] ∧ Gathered w w.connectable devs ∧
      (∀ dev ∈ devs, (w.deviceChunk dev).Ok) ∧ p.addressCount = devs.length ∧
      p.cells = devicesCells (devs.map w.deviceChunk) ∧
      p.size = packedOffset devs.length + p.cells.length := by
  unfold scpAddressPack at h
  rw [Option.bind_eq_bind, Option.bind_eq_some_iff] at h
  obtain ⟨devs, hgather, h⟩ := h
  rw [Option.bind_eq_bind, Option.bind_eq_some_iff] at h
  obtain ⟨cells, hpack, h⟩ := h
  have hdevs : w.connectable.foldl (addDevice w) [] = devs := gather_eq w _ _ hgather
  have hg : Gathered w w.connectable devs := hdevs ▸ gathered_foldl w w.connectable
  obtain ⟨hoks, hcells⟩ := doPack_eq List.filter_sublist (fun dev hdev =>
    ⟨hg.sublist dev hdev, hg.rscIndex_mem dev hdev, hg.devAddrLen dev hdev⟩) hpack
  have hlen := length_devicesCells fun dev hdev =>
    ⟨hg.devAddrLen dev hdev, hg.tlAddrsSize dev hdev, hoks dev hdev⟩
  rw [List.nil_append] at hcells
  rw [← Option.some.inj h]
  refine ⟨devs, hdevs.symm, hg, hoks, rfl, hcells, ?_⟩
  simp only [scpAddressPackedSize, hcells, hlen]
  split_ifs with hzero
  · rw [List.eq_nil_of_length_eq_zero hzero]
    rfl
  · rfl

end Kucg.Stars.Address
