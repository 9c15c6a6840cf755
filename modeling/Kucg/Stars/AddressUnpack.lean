import Kucg.Stars.AddressPack

/-! Unpacking a worker address (`scp_address.c`), and its round trip.

    The unpacker writes its entries in place, in front of the bytes it parses. An interface takes at
    least 65 bytes of them and an entry 40, so an entry never reaches a byte still to be read
    (`unpackIfaces_eq`); but the room is counted in devices, and where a device has two interfaces
    the entry that is too many lies over the first device (`entry_over_first`). The entry at index
    `i` is that of interface `i` if and only if the interfaces that can connect come first, share no
    device, and have the memory domain of the resource with their own rank
    (`roundTrips_iff_inOrder`); the empty list is read behind the buffer. -/

namespace Kucg.Stars.Address

/-! ### Memory -/

/-- A buffer. -/
structure Memory where
  size : ℕ
  cell : ℕ → Cell

/-- A byte is read; `none` when it is outside of the buffer or not known. -/
def Memory.read (m : Memory) (o : ℕ) : Option ℕ := if o < m.size then m.cell o else none

/-- Entries are written over `[a, b)`. -/
def Memory.clear (m : Memory) (a b : ℕ) : Memory where
  size := m.size
  cell o := if a ≤ o ∧ o < b then none else m.cell o

/-- `address_list[e]`. -/
def entryAt (e : ℕ) : ℕ := headSize + entrySize * e

/-- An entry is written; `none` when it does not fit into the buffer. -/
def Memory.putEntry (m : Memory) (e : ℕ) : Option Memory :=
  if entryAt (e + 1) ≤ m.size then some (m.clear (entryAt e) (entryAt (e + 1))) else none

/-! ### Unpacking -/

/-- `scp_address_entry_t`; the pointers are offsets in the buffer, or null. -/
structure Entry where
  devAddr : Option ℕ
  ifaceAddr : Option ℕ
  ifaceAttr : ℕ
  mdAlloc : Bool
  mdReg : Bool
  devNumPaths : ℕ
  mdIndex : ℕ
  devIndex : ℕ
  deriving DecidableEq

/-- What `scp_address_unpack_device` knows of a device when it comes to the interfaces. -/
structure DeviceHead where
  devAddr : Option ℕ
  mdAlloc : Bool
  mdReg : Bool
  numPaths : ℕ
  mdIndex : ℕ
  devIndex : ℕ

/-- The entry of an interface. -/
def DeviceHead.entry (d : DeviceHead) (ptr len : ℕ) : Entry :=
  ⟨d.devAddr, if 0 < len then some (ptr + attrSize + 1) else none, ptr, d.mdAlloc, d.mdReg,
    d.numPaths, d.mdIndex, d.devIndex⟩

/-- The buffer, the entries written so far and the place that is parsed. -/
structure Parse where
  mem : Memory
  entries : List Entry
  ptr : ℕ

/-- The loop over the interfaces of a device. -/
def unpackIfaces (d : DeviceHead) : ℕ → Parse → Option Parse
  | 0, _ => none
  | fuel + 1, s => do
    let mem ← s.mem.putEntry s.entries.length
    let byte ← mem.read (s.ptr + attrSize)
    let len := byte &&& flagLenMask
    let s := ⟨mem, s.entries ++ [d.entry s.ptr len], s.ptr + attrSize + 1 + len⟩
    if byte &&& flagLast ≠ 0 then some s else unpackIfaces d fuel s

/-- `scp_address_unpack_device`, with `last_dev`. -/
def unpackDevice (fuel : ℕ) (devIndex : ℕ) (s : Parse) : Option (Parse × Bool) := do
  let mdByte ← s.mem.read s.ptr
  let lenByte ← s.mem.read (s.ptr + 1)
  let len := lenByte &&& flagLenMask
  let lastDev : Bool := lenByte &&& flagLast ≠ 0
  let (numPaths, ptr) ←
    if lenByte &&& flagHavePaths ≠ 0 then (s.mem.read (s.ptr + 2)).map fun n => (n, s.ptr + 3)
    else some (1, s.ptr + 2)
  let d : DeviceHead := ⟨if 0 < len then some ptr else none, mdByte &&& flagMdAlloc ≠ 0,
    mdByte &&& flagMdReg ≠ 0, numPaths, mdByte &&& flagMdMask, devIndex⟩
  if mdByte &&& flagMdEmptyDev ≠ 0 then some (⟨s.mem, s.entries, ptr + len⟩, lastDev)
  else (unpackIfaces d fuel ⟨s.mem, s.entries, ptr + len⟩).map fun s => (s, lastDev)

/-- The loop over the devices. -/
def unpackDevices (fuel₁ : ℕ) : ℕ → ℕ → Parse → Option Parse
  | 0, _, _ => none
  | fuel + 1, devIndex, s => do
    let (s, lastDev) ← unpackDevice fuel₁ devIndex s
    if lastDev then some s else unpackDevices fuel₁ fuel (devIndex + 1) s

/-- `SCP_NULL_RESOURCE`. -/
def nullResource : ℕ := 255

/-- The buffer of a packed address. -/
def Packed.mem (p : Packed) : Memory where
  size := p.size
  cell o := if packedOffset p.addressCount ≤ o then
    (p.cells[o - packedOffset p.addressCount]?).join else none

/-- An unpacked address: its buffer and the entries in it. -/
structure Unpacked where
  mem : Memory
  entries : List Entry

/-- `scp_address_unpack`. The outer `none` is an access outside of the buffer, or to a byte that is
not known; with the inner one it returns without an address. -/
def scpAddressUnpack (p : Packed) : Option (Option Unpacked) := do
  let ptr := packedOffset p.addressCount
  let byte ← p.mem.read ptr
  if byte = nullResource then some none
  else
    let s ← unpackDevices p.size p.size 0 ⟨p.mem, [], ptr⟩
    some (some ⟨s.mem, s.entries⟩)

/-! ### Bytes that share flags and lengths -/

theorem ifaceByte_len : ∀ len ≤ flagLenMask, ∀ isLast : Bool,
    (len ||| if isLast then flagLast else 0) &&& flagLenMask = len := by decide

theorem ifaceByte_last : ∀ len ≤ flagLenMask, ∀ isLast : Bool,
    (len ||| if isLast then flagLast else 0) &&& flagLast ≠ 0 ↔ isLast = true := by decide

theorem lenByte_len : ∀ len ≤ flagLenMask, ∀ isLast paths : Bool,
    ((if isLast then flagLast else 0) ||| len ||| if paths then flagHavePaths else 0) &&&
      flagLenMask = len := by decide

theorem lenByte_last : ∀ len ≤ flagLenMask, ∀ isLast paths : Bool,
    decide (((if isLast then flagLast else 0) ||| len ||| if paths then flagHavePaths else 0) &&&
      flagLast ≠ 0) = isLast := by decide

theorem lenByte_paths : ∀ len ≤ flagLenMask, ∀ isLast paths : Bool,
    ((if isLast then flagLast else 0) ||| len ||| if paths then flagHavePaths else 0) &&&
      flagHavePaths ≠ 0 ↔ paths = true := by decide

/-- What is read back from the byte of the memory domain. -/
theorem mdByte_fields : ∀ md ≤ flagMdMask, ∀ alloc reg : Bool,
    let byte := md ||| (if alloc then flagMdAlloc else 0) ||| (if reg then flagMdReg else 0)
    byte &&& flagMdMask = md ∧ decide (byte &&& flagMdAlloc ≠ 0) = alloc ∧
      decide (byte &&& flagMdReg ≠ 0) = reg ∧ ¬(byte &&& flagMdEmptyDev ≠ 0) ∧
      byte ≠ nullResource := by decide

/-! ### What is parsed -/

/-- The given bytes lie at `ptr`. -/
def StreamAt (m : Memory) (ptr : ℕ) (cells : List Cell) : Prop :=
  ∀ k c, cells[k]? = some c → ptr + k < m.size ∧ m.cell (ptr + k) = c

theorem streamAt_append {m : Memory} {ptr : ℕ} {as bs : List Cell} :
    StreamAt m ptr (as ++ bs) ↔ StreamAt m ptr as ∧ StreamAt m (ptr + as.length) bs := by
  constructor
  · intro h
    refine ⟨fun k c hk => h k c ?_, fun k c hk => ?_⟩
    · rw [List.getElem?_append_left (List.getElem?_eq_some_iff.mp hk).1, hk]
    · have hat := h (as.length + k) c (by
        rw [List.getElem?_append_right (by omega)]
        simpa using hk)
      rwa [Nat.add_assoc]
  · rintro ⟨ha, hb⟩ k c hk
    rcases Nat.lt_or_ge k as.length with hlt | hge
    · exact ha k c (by rwa [List.getElem?_append_left hlt] at hk)
    · rw [List.getElem?_append_right hge] at hk
      have hat := hb (k - as.length) c hk
      rwa [show ptr + as.length + (k - as.length) = ptr + k by omega] at hat

theorem StreamAt.read_at {m : Memory} {ptr b : ℕ} {cells : List Cell} (h : StreamAt m ptr cells)
    (k : ℕ) (hk : cells[k]? = some (some b)) : m.read (ptr + k) = some b := by
  obtain ⟨hlt, hcell⟩ := h k (some b) hk
  rw [Memory.read, if_pos hlt, hcell]

theorem StreamAt.read {m : Memory} {ptr b : ℕ} {cells : List Cell}
    (h : StreamAt m ptr (some b :: cells)) : m.read ptr = some b := h.read_at 0 rfl

theorem StreamAt.length_le {m : Memory} {ptr : ℕ} {cells : List Cell} (h : StreamAt m ptr cells)
    (hne : cells ≠ []) : ptr + cells.length ≤ m.size := by
  have hpos := List.length_pos_iff.mpr hne
  obtain ⟨hlt, -⟩ := h (cells.length - 1) _ (List.getElem?_eq_getElem (by omega))
  omega

/-- What is written in front of the bytes does not change them. -/
theorem StreamAt.clear {m : Memory} {ptr a b : ℕ} {cells : List Cell} (h : StreamAt m ptr cells)
    (hb : b ≤ ptr) : StreamAt (m.clear a b) ptr cells := by
  intro k c hk
  obtain ⟨hlt, hcell⟩ := h k c hk
  refine ⟨hlt, ?_⟩
  simp only [Memory.clear]
  rw [if_neg (by omega), hcell]

theorem Memory.read_clear {m : Memory} {a b o : ℕ} (ha : a ≤ o) (hb : o < b) :
    (m.clear a b).read o = none := by
  unfold Memory.read Memory.clear
  simp [ha, hb]

theorem Memory.clear_clear (m : Memory) {a b c : ℕ} (hab : a ≤ b) (hbc : b ≤ c) :
    (m.clear a b).clear b c = m.clear a c := by
  simp only [Memory.clear, Memory.mk.injEq, true_and]
  funext o
  split_ifs with h₁ h₂ h₃ <;> first | rfl | omega

@[simp] theorem entryAt_succ (e : ℕ) : entryAt (e + 1) = entryAt e + entrySize := by
  simp only [entryAt, entrySize]
  omega

/-- The entries of the interfaces at `ptr`. -/
def ifacesEntries (d : DeviceHead) : List IfaceChunk → ℕ → List Entry
  | [], _ => []
  | c :: cs, ptr =>
    d.entry ptr c.addr.length :: ifacesEntries d cs (ptr + attrSize + 1 + c.addr.length)

@[simp] theorem length_ifacesEntries (d : DeviceHead) : ∀ (cs : List IfaceChunk) (ptr : ℕ),
    (ifacesEntries d cs ptr).length = cs.length
  | [], _ => rfl
  | _ :: cs, ptr => by simp [ifacesEntries, length_ifacesEntries d cs]

/-- The loop over the interfaces parses what the packer wrote, and its entries stay behind it. -/
theorem unpackIfaces_eq (d : DeviceHead) : ∀ (cs : List IfaceChunk) {fuel : ℕ} {s : Parse},
    cs ≠ [] → cs.length ≤ fuel → (∀ c ∈ cs, c.Ok) → StreamAt s.mem s.ptr (ifacesCells cs) →
    entryAt (s.entries.length + 1) ≤ s.ptr →
    unpackIfaces d fuel s =
      some ⟨s.mem.clear (entryAt s.entries.length) (entryAt (s.entries.length + cs.length)),
        s.entries ++ ifacesEntries d cs s.ptr, s.ptr + (ifacesCells cs).length⟩
  | [], _, _, hne, _, _, _, _ => absurd rfl hne
  | c :: cs, 0, _, _, hfuel, _, _, _ => by simp at hfuel
  | c :: cs, fuel + 1, s, _, hfuel, hok, hstream, hroom => by
    have hc := hok c (by simp)
    have hfit : entryAt (s.entries.length + 1) ≤ s.mem.size := by
      have hlen := hstream.length_le (by simp [ifacesCells, IfaceChunk.cells])
      omega
    have hstream' := hstream.clear (a := entryAt s.entries.length) hroom
    rw [ifacesCells, streamAt_append, IfaceChunk.cells, streamAt_append] at hstream'
    obtain ⟨⟨-, haddr⟩, hrest⟩ := hstream'
    rw [hc.attr] at haddr
    rw [List.length_append, List.length_cons, List.length_map, hc.attr] at hrest
    rw [unpackIfaces, Memory.putEntry, if_pos hfit]
    simp only [Option.bind_eq_bind, Option.bind_some]
    rw [haddr.read]
    simp only [Option.bind_some, ifaceByte_len _ hc.addr]
    have hlen : (ifacesCells (c :: cs)).length =
        attrSize + 1 + c.addr.length + (ifacesCells cs).length := by
      rw [ifacesCells, List.length_append, hc.length_cells]
      simp only [attrSize]
      omega
    cases cs with
    | nil =>
      rw [if_pos ((ifaceByte_last _ hc.addr ([] : List IfaceChunk).isEmpty).mpr rfl), hlen]
      simp [ifacesEntries, ifacesCells, Nat.add_assoc]
    | cons c' cs =>
      rw [if_neg (by rw [ifaceByte_last _ hc.addr]; simp)]
      have ih := @unpackIfaces_eq d (c' :: cs) fuel
        ⟨s.mem.clear (entryAt s.entries.length) (entryAt (s.entries.length + 1)),
          s.entries ++ [d.entry s.ptr c.addr.length], s.ptr + attrSize + 1 + c.addr.length⟩
        (by simp) (by simpa using hfuel) (fun x hx => hok x (by simp [hx])) ?_ ?_
      · rw [ih, hlen]
        simp only [List.length_append, List.length_cons, List.length_nil, List.append_assoc,
          Option.some.injEq, Parse.mk.injEq]
        refine ⟨?_, by simp [ifacesEntries], by omega⟩
        rw [Memory.clear_clear _ (by simp) (by simp only [entryAt, entrySize]; omega)]
        congr 2
        omega
      · rwa [show s.ptr + attrSize + 1 + c.addr.length =
          s.ptr + (attrSize + (c.addr.length + 1)) by omega]
      · simp only [List.length_append, List.length_cons, List.length_nil, entryAt_succ, entrySize,
          attrSize] at hroom ⊢
        omega

/-- What is known of a device at `ptr` when its interfaces are parsed. -/
def DeviceChunk.headAt (d : DeviceChunk) (devIndex ptr : ℕ) : DeviceHead where
  devAddr := if 0 < d.addr.length then some (ptr + 2 + if 1 < d.numPaths then 1 else 0) else none
  mdAlloc := d.alloc
  mdReg := d.reg
  numPaths := d.numPaths
  mdIndex := d.mdIndex
  devIndex := devIndex

theorem unpackDevice_eq {d : DeviceChunk} {fuel devIndex : ℕ} {s : Parse} {isLast : Bool}
    (hok : d.Ok) (hfuel : d.ifaces.length ≤ fuel) (hstream : StreamAt s.mem s.ptr (d.cells isLast))
    (hroom : entryAt (s.entries.length + 1) ≤ s.ptr) :
    unpackDevice fuel devIndex s =
      some (⟨s.mem.clear (entryAt s.entries.length) (entryAt (s.entries.length + d.ifaces.length)),
        s.entries ++ ifacesEntries (d.headAt devIndex s.ptr) d.ifaces
          (s.ptr + (d.head isLast).length), s.ptr + (d.cells isLast).length⟩, isLast) := by
  obtain ⟨hmask, halloc, hreg, hempty, -⟩ := mdByte_fields d.mdIndex hok.mdIndex d.alloc d.reg
  have hlen := lenByte_len d.addr.length hok.addr isLast
  have hlast := lenByte_last d.addr.length hok.addr isLast
  have hpaths := lenByte_paths d.addr.length hok.addr isLast
  have hifaces : ∀ ptr, s.ptr + (d.head isLast).length = ptr →
      unpackIfaces (d.headAt devIndex s.ptr) fuel ⟨s.mem, s.entries, ptr⟩ = some
        ⟨s.mem.clear (entryAt s.entries.length) (entryAt (s.entries.length + d.ifaces.length)),
          s.entries ++ ifacesEntries (d.headAt devIndex s.ptr) d.ifaces ptr,
          s.ptr + (d.cells isLast).length⟩ := by
    rintro ptr rfl
    rw [unpackIfaces_eq _ _ hok.ifaces_ne_nil hfuel hok.ifaces
      (streamAt_append.mp hstream).2 (by dsimp only; omega), DeviceChunk.cells, List.length_append,
      Nat.add_assoc]
  have hhead := (streamAt_append.mp hstream).1
  have hsize := d.length_head isLast
  by_cases hmany : 1 < d.numPaths
  · -- the number of paths has a byte of its own
    have hlen := hlen true
    have hlast := hlast true
    have hflag := (hpaths true).mpr rfl
    rw [if_pos rfl] at hlen hlast hflag
    rw [if_pos hmany] at hsize
    have hread₀ : s.mem.read s.ptr = _ := hhead.read_at 0 (by rw [DeviceChunk.head]; rfl)
    have hread₁ := hhead.read_at 1 (by rw [DeviceChunk.head, if_pos hmany]; rfl)
    have hread₂ := hhead.read_at 2 (by rw [DeviceChunk.head, if_pos hmany]; rfl)
    have hdev : d.headAt devIndex s.ptr = ⟨if 0 < d.addr.length then some (s.ptr + 3) else none,
        d.alloc, d.reg, d.numPaths, d.mdIndex, devIndex⟩ := by
      rw [DeviceChunk.headAt, if_pos hmany]
    rw [unpackDevice, hread₀]
    simp only [Option.bind_eq_bind, Option.bind_some, hread₁, DeviceChunk.lenByte, if_pos hflag,
      hlen, hlast, hread₂, Option.map_some, DeviceChunk.mdByte, hmask, halloc, hreg,
      if_neg hempty]
    rw [← hdev, hifaces _ (by omega), Option.map_some]
    have hptr : s.ptr + (d.head isLast).length = s.ptr + 3 + d.addr.length := by omega
    rw [hptr]
  · have hlen := hlen false
    have hlast := hlast false
    have hflag := mt (hpaths false).mp (by simp)
    simp only [Bool.false_eq_true, if_false, Nat.or_zero] at hlen hlast hflag
    rw [if_neg hmany] at hsize
    have hread₀ : s.mem.read s.ptr = _ := hhead.read_at 0 (by rw [DeviceChunk.head]; rfl)
    have hread₁ := hhead.read_at 1 (by rw [DeviceChunk.head, if_neg hmany]; rfl)
    have hdev : d.headAt devIndex s.ptr = ⟨if 0 < d.addr.length then some (s.ptr + 2) else none,
        d.alloc, d.reg, 1, d.mdIndex, devIndex⟩ := by
      have hone : d.numPaths = 1 := by have := hok.numPaths; omega
      rw [DeviceChunk.headAt, if_neg hmany, hone]
    rw [unpackDevice, hread₀]
    simp only [Option.bind_eq_bind, Option.bind_some, hread₁, DeviceChunk.lenByte, if_neg hflag,
      hlen, hlast, DeviceChunk.mdByte, hmask, halloc, hreg, if_neg hempty]
    rw [← hdev, hifaces _ (by omega), Option.map_some]
    have hptr : s.ptr + (d.head isLast).length = s.ptr + 2 + d.addr.length := by omega
    rw [hptr]

/-- The entries of the devices at `ptr`. -/
def devicesEntries : ℕ → List DeviceChunk → ℕ → List Entry
  | _, [], _ => []
  | devIndex, d :: ds, ptr =>
    ifacesEntries (d.headAt devIndex ptr) d.ifaces (ptr + (d.head ds.isEmpty).length) ++
      devicesEntries (devIndex + 1) ds (ptr + (d.cells ds.isEmpty).length)

/-- The number of interfaces of all devices. -/
def ifaceCount (ds : List DeviceChunk) : ℕ := (ds.map fun d => d.ifaces.length).sum

@[simp] theorem length_devicesEntries : ∀ (devIndex : ℕ) (ds : List DeviceChunk) (ptr : ℕ),
    (devicesEntries devIndex ds ptr).length = ifaceCount ds
  | _, [], _ => rfl
  | devIndex, d :: ds, ptr => by
    rw [devicesEntries, List.length_append, length_ifacesEntries, length_devicesEntries, ifaceCount,
      ifaceCount, List.map_cons, List.sum_cons]

/-- An interface takes more bytes than its entry. -/
theorem entries_le_cells {cs : List IfaceChunk} (h : ∀ c ∈ cs, c.Ok) :
    entrySize * cs.length ≤ (ifacesCells cs).length := by
  induction cs with
  | nil => simp
  | cons c cs ih =>
    have hrest := ih fun d hd => h d (by simp [hd])
    rw [ifacesCells, List.length_append, (h c (by simp)).length_cells, List.length_cons, entrySize]
    rw [entrySize] at hrest
    omega

/-- The loop over the devices parses what the packer wrote. -/
theorem unpackDevices_eq {fuel₁ : ℕ} : ∀ (ds : List DeviceChunk) (devIndex : ℕ) {fuel : ℕ}
    {s : Parse}, ds ≠ [] → ds.length ≤ fuel → (∀ d ∈ ds, d.Ok ∧ d.ifaces.length ≤ fuel₁) →
    StreamAt s.mem s.ptr (devicesCells ds) → entryAt (s.entries.length + 1) ≤ s.ptr →
    unpackDevices fuel₁ fuel devIndex s =
      some ⟨s.mem.clear (entryAt s.entries.length) (entryAt (s.entries.length + ifaceCount ds)),
        s.entries ++ devicesEntries devIndex ds s.ptr, s.ptr + (devicesCells ds).length⟩
  | [], _, _, _, hne, _, _, _, _ => absurd rfl hne
  | d :: ds, _, 0, _, _, hfuel, _, _, _ => by simp at hfuel
  | d :: ds, devIndex, fuel + 1, s, _, hfuel, hok, hstream, hroom => by
    obtain ⟨hd, hfuel₁⟩ := hok d (by simp)
    rw [devicesCells, streamAt_append] at hstream
    rw [unpackDevices, unpackDevice_eq hd hfuel₁ hstream.1 hroom]
    simp only [Option.bind_eq_bind, Option.bind_some]
    cases ds with
    | nil =>
      rw [if_pos (by rfl)]
      simp [devicesEntries, devicesCells, ifaceCount]
    | cons d' ds =>
      rw [if_neg (by simp)]
      have hbytes : entrySize * d.ifaces.length ≤ (d.cells (d' :: ds).isEmpty).length := by
        have hifaces := entries_le_cells hd.ifaces
        rw [DeviceChunk.cells, List.length_append]
        omega
      have ih := @unpackDevices_eq fuel₁ (d' :: ds) (devIndex + 1) fuel
        ⟨s.mem.clear (entryAt s.entries.length) (entryAt (s.entries.length + d.ifaces.length)),
          s.entries ++ ifacesEntries (d.headAt devIndex s.ptr) d.ifaces
            (s.ptr + (d.head (d' :: ds).isEmpty).length),
          s.ptr + (d.cells (d' :: ds).isEmpty).length⟩
        (by simp) (by simpa using hfuel) (fun x hx => hok x (by simp [hx])) ?_ ?_
      · rw [ih]
        simp only [List.length_append, length_ifacesEntries, List.append_assoc, Option.some.injEq,
          Parse.mk.injEq]
        refine ⟨?_, by simp [devicesEntries], by simp [devicesCells]; omega⟩
        rw [Memory.clear_clear _ (by simp only [entryAt, entrySize]; omega)
          (by simp only [entryAt, entrySize]; omega)]
        simp [ifaceCount, Nat.add_assoc]
      · apply hstream.2.clear
        simp only [entryAt, entrySize] at hroom hbytes ⊢
        omega
      · simp only [List.length_append, length_ifacesEntries, entryAt, entrySize] at hroom hbytes ⊢
        omega

theorem length_le_devicesCells {ds : List DeviceChunk} (hok : ∀ d ∈ ds, d.Ok) :
    ds.length ≤ (devicesCells ds).length ∧
      ∀ d ∈ ds, d.ifaces.length ≤ (devicesCells ds).length := by
  induction ds with
  | nil => simp
  | cons d ds ih =>
    obtain ⟨hlen, hifaces⟩ := ih fun x hx => hok x (by simp [hx])
    have hhead := d.length_head ds.isEmpty
    have hcells := entries_le_cells (hok d (by simp)).ifaces
    rw [entrySize] at hcells
    rw [devicesCells, DeviceChunk.cells, List.length_append, List.length_append, List.length_cons]
    refine ⟨by omega, fun x hx => ?_⟩
    rcases List.mem_cons.mp hx with rfl | hx
    · omega
    · have := hifaces x hx
      omega

theorem Packed.streamAt {p : Packed}
    (hsize : p.size = packedOffset p.addressCount + p.cells.length) :
    StreamAt p.mem (packedOffset p.addressCount) p.cells := by
  intro k c hk
  have hlt := (List.getElem?_eq_some_iff.mp hk).1
  refine ⟨by simp only [Packed.mem]; omega, ?_⟩
  simp [Packed.mem, hk]

/-- A packed address is parsed to the end; its entries lie over the first bytes of the buffer. -/
theorem scpAddressUnpack_eq {p : Packed} {ds : List DeviceChunk} (hne : ds ≠ [])
    (hok : ∀ d ∈ ds, d.Ok) (hcount : p.addressCount = ds.length)
    (hcells : p.cells = devicesCells ds)
    (hsize : p.size = packedOffset p.addressCount + p.cells.length) :
    scpAddressUnpack p =
      some (some ⟨p.mem.clear (entryAt 0) (entryAt (ifaceCount ds)),
        devicesEntries 0 ds (packedOffset p.addressCount)⟩) := by
  have hstream := Packed.streamAt hsize
  obtain ⟨hlen, hifaces⟩ := length_le_devicesCells hok
  have hpos := List.length_pos_iff.mpr hne
  have hroom : entryAt (0 + 1) ≤ packedOffset p.addressCount := by
    simp only [entryAt, packedOffset, entrySize]
    omega
  rw [hcells] at hstream hsize
  have hparse := unpackDevices_eq ds 0 (s := ⟨p.mem, [], packedOffset p.addressCount⟩) hne
    (show ds.length ≤ p.size by omega)
    (fun d hd => ⟨hok d hd, show d.ifaces.length ≤ p.size by have := hifaces d hd; omega⟩)
    hstream hroom
  obtain ⟨d, ds, rfl⟩ := List.exists_cons_of_ne_nil hne
  have hbyte : p.mem.read (packedOffset p.addressCount) = some d.mdByte :=
    hstream.read_at 0 (by rw [devicesCells, DeviceChunk.cells, DeviceChunk.head]; rfl)
  have hnull : d.mdByte ≠ nullResource :=
    (mdByte_fields d.mdIndex (hok d (by simp)).mdIndex d.alloc d.reg).2.2.2.2
  rw [scpAddressUnpack]
  simp only [Option.bind_eq_bind, hbyte, Option.bind_some, if_neg hnull]
  rw [hparse]
  simp

/-! ### What an entry points to -/

/-- The known bytes of `cells` lie at `o`. -/
def Holds (m : Memory) (o : ℕ) (cells : List Cell) : Prop :=
  ∀ k b, cells[k]? = some (some b) → m.read (o + k) = some b

/-- A pointer to an address; it is null when the address is empty. -/
def PointsTo (m : Memory) (pointer : Option ℕ) (addr : List ℕ) : Prop :=
  match pointer with
  | none => addr = []
  | some o => addr ≠ [] ∧ Holds m o (addr.map some)

theorem StreamAt.holds {m : Memory} {o : ℕ} {cells : List Cell} (h : StreamAt m o cells) :
    Holds m o cells := fun k _ hk => h.read_at k hk

theorem pointsTo_of_streamAt {m : Memory} {o : ℕ} {addr : List ℕ}
    (h : StreamAt m o (addr.map some)) :
    PointsTo m (if 0 < addr.length then some o else none) addr := by
  split_ifs with hpos
  · exact ⟨List.length_pos_iff.mp hpos, h.holds⟩
  · exact List.eq_nil_of_length_eq_zero (by omega)

/-- The entry is that of the given interface of the given device. -/
structure EntryOf (m : Memory) (d : DeviceChunk) (e : Entry) (c : IfaceChunk) : Prop where
  devAddr : PointsTo m e.devAddr d.addr
  ifaceAddr : PointsTo m e.ifaceAddr c.addr
  ifaceAttr : Holds m e.ifaceAttr c.attr
  mdIndex : e.mdIndex = d.mdIndex

theorem ifacesEntries_entryOf {m : Memory} {d : DeviceChunk} {h : DeviceHead}
    (hdev : PointsTo m h.devAddr d.addr) (hmd : h.mdIndex = d.mdIndex) :
    ∀ {cs : List IfaceChunk} {ptr : ℕ}, (∀ c ∈ cs, c.Ok) → StreamAt m ptr (ifacesCells cs) →
      List.Forall₂ (EntryOf m d) (ifacesEntries h cs ptr) cs
  | [], _, _, _ => List.Forall₂.nil
  | c :: cs, ptr, hok, hstream => by
    have hattr := (hok c (by simp)).attr
    rw [ifacesCells, streamAt_append, IfaceChunk.cells, streamAt_append, ← List.singleton_append,
      streamAt_append] at hstream
    obtain ⟨⟨hattrs, -, haddr⟩, hrest⟩ := hstream
    simp only [List.length_append, List.length_singleton, List.length_map, hattr] at haddr hrest
    refine List.Forall₂.cons ⟨hdev, pointsTo_of_streamAt haddr, hattrs.holds, hmd⟩ ?_
    apply ifacesEntries_entryOf hdev hmd (fun x hx => hok x (by simp [hx]))
    rwa [show ptr + attrSize + 1 + c.addr.length = ptr + (attrSize + (1 + c.addr.length)) by omega]

/-- Where each device has one interface, entry and device go together. -/
theorem devicesEntries_entryOf {m : Memory} : ∀ {ds : List DeviceChunk} (devIndex : ℕ) {ptr : ℕ},
    (∀ d ∈ ds, d.Ok ∧ d.ifaces.length = 1) → StreamAt m ptr (devicesCells ds) →
      List.Forall₂ (fun e d => ∃ c, d.ifaces = [c] ∧ EntryOf m d e c)
        (devicesEntries devIndex ds ptr) ds
  | [], _, _, _, _ => List.Forall₂.nil
  | d :: ds, devIndex, ptr, hok, hstream => by
    obtain ⟨hd, hone⟩ := hok d (by simp)
    obtain ⟨c, hc⟩ := List.length_eq_one_iff.mp hone
    rw [devicesCells, streamAt_append, DeviceChunk.cells, streamAt_append] at hstream
    obtain ⟨⟨hhead, hifaces⟩, hrest⟩ := hstream
    have hlen := d.length_head ds.isEmpty
    have hdev : PointsTo m (d.headAt devIndex ptr).devAddr d.addr := by
      rw [DeviceChunk.head, streamAt_append] at hhead
      have haddr := hhead.2
      rw [DeviceChunk.head, List.length_append, List.length_map] at hlen
      rw [show ptr + _ = ptr + 2 + if 1 < d.numPaths then 1 else 0 by omega] at haddr
      exact pointsTo_of_streamAt haddr
    have hentries :=
      @ifacesEntries_entryOf m d (d.headAt devIndex ptr) hdev rfl _ _ hd.ifaces hifaces
    have hmore := devicesEntries_entryOf (devIndex + 1) (fun x hx => hok x (by simp [hx])) hrest
    rw [hc] at hentries
    rw [devicesEntries, hc]
    cases hentries with
    | cons hentry _ => exact List.Forall₂.cons ⟨c, hc, hentry⟩ hmore

/-! ### The round trip -/

/-- The entry carries the addresses, the attributes and the memory domain of the interface. -/
structure Carries (w : Worker) (m : Memory) (e : Entry) (iface : Iface) : Prop where
  devAddr : PointsTo m e.devAddr iface.deviceAddr
  ifaceAddr : PointsTo m e.ifaceAddr iface.ifaceAddr
  ifaceAttr : Holds m e.ifaceAttr iface.attr.cells
  mdIndex : e.mdIndex = w.mdIndex iface.rscIndex

/-- The packer writes as many bytes as it has computed; the unpacker stays inside of the buffer,
reads no byte it has written over, and gives each interface that can connect the entry at its own
index, and no other entry. -/
structure RoundTrips (w : Worker) (p : Packed) : Prop where
  exact_size : p.size = packedOffset p.addressCount + p.cells.length
  entries : ∃ u, scpAddressUnpack p = some (some u) ∧
    u.entries.length = (w.ifaces.filter Iface.canConnect).length ∧
    ∀ (i : ℕ) iface, w.ifaces[i]? = some iface → iface.canConnect →
      ∃ e, u.entries[i]? = some e ∧ Carries w u.mem e iface

/-- The elements that pass a test stand in front of the others. -/
def Leading {α : Type} (p : α → Bool) (l : List α) : Prop :=
  ∀ (i j : ℕ) a b, i < j → l[i]? = some a → l[j]? = some b → p b → p a

/-- The workers whose address makes the round trip. -/
structure InOrder (w : Worker) : Prop where
  exists_connectable : ∃ iface ∈ w.ifaces, iface.canConnect
  connectable_first : Leading Iface.canConnect w.ifaces
  devices_apart : (w.connectable.map w.key).Nodup
  mdIndex : ∀ (i : ℕ) iface r, w.ifaces[i]? = some iface → iface.canConnect →
    w.tlBitmap[i]? = some r → w.mdIndex r = w.mdIndex iface.rscIndex

theorem Worker.map_iface (w : Worker) : w.tlBitmap.map w.iface = w.ifaces := by
  apply List.ext_getElem? 
  intro i
  rw [List.getElem?_map]
  cases hr : w.tlBitmap[i]? with
  | none =>
    rw [List.getElem?_eq_none_iff] at hr
    rw [Option.map_none, List.getElem?_eq_none (by rw [w.length_ifaces]; exact hr)]
  | some r =>
    have hlt : i < w.ifaces.length := by
      rw [w.length_ifaces]
      exact (List.getElem?_eq_some_iff.mp hr).1
    rw [Option.map_some, List.getElem?_eq_getElem hlt,
      w.iface_getElem hr (List.getElem?_eq_getElem hlt)]

theorem Worker.length_connectable (w : Worker) :
    w.connectable.length = (w.ifaces.filter Iface.canConnect).length := by
  rw [← w.map_iface, List.filter_map, List.length_map]
  rfl

theorem Leading.getElem_filter {α : Type} {p : α → Bool} : ∀ {l : List α}, Leading p l →
    ∀ {i : ℕ} {a : α}, l[i]? = some a → p a → (l.filter p)[i]? = some a
  | [], _, _, _, h, _ => by simp at h
  | x :: xs, hlead, i, a, ha, hp => by
    have htail : Leading p xs := fun i j a b hij ha hb =>
      hlead (i + 1) (j + 1) a b (by omega) (by simpa using ha) (by simpa using hb)
    cases i with
    | zero =>
      obtain rfl : x = a := by simpa using ha
      rw [List.filter_cons_of_pos hp]
      rfl
    | succ i =>
      rw [List.filter_cons_of_pos (hlead 0 (i + 1) x a (by omega) rfl ha hp)]
      simpa using htail.getElem_filter (by simpa using ha) hp

theorem Leading.head {α : Type} {p : α → Bool} {l : List α} (h : Leading p l)
    (hsome : ∃ a ∈ l, p a = true) : ∃ a, l[0]? = some a ∧ p a = true := by
  obtain ⟨b, hb, hp⟩ := hsome
  obtain ⟨j, hj⟩ := List.mem_iff_getElem?.mp hb
  cases j with
  | zero => exact ⟨b, hj, hp⟩
  | succ j =>
    have hpos : 0 < l.length := List.length_pos_of_mem hb
    have ha := List.getElem?_eq_getElem hpos
    exact ⟨l[0], ha, h 0 (j + 1) _ b (by omega) ha hj hp⟩

/-- The last element that passes stands at least where it stands among those that pass. -/
theorem exists_last_filter {α : Type} {p : α → Bool} : ∀ {l : List α}, l.filter p ≠ [] →
    ∃ (j : ℕ) (a : α), l[j]? = some a ∧ p a = true ∧ (l.filter p).length ≤ j + 1
  | [], h => by simp at h
  | x :: xs, h => by
    by_cases hxs : xs.filter p = []
    · have hx : p x = true := by
        by_contra hx
        exact h (by rw [List.filter_cons_of_neg hx, hxs])
      exact ⟨0, x, rfl, hx, by rw [List.filter_cons_of_pos hx, hxs]; simp⟩
    · obtain ⟨j, a, ha, hp, hle⟩ := exists_last_filter hxs
      refine ⟨j + 1, a, by simpa using ha, hp, ?_⟩
      rw [List.filter_cons]
      split_ifs
      · simpa using hle
      · omega

/-- Where no element that passes stands behind their number, they are in front. -/
theorem leading_of_lt {α : Type} {p : α → Bool} : ∀ {l : List α},
    (∀ (i : ℕ) a, l[i]? = some a → p a → i < (l.filter p).length) → Leading p l
  | [], _ => by intro i j a b hij ha; simp at ha
  | x :: xs, h => by
    by_cases hx : p x = true
    · rw [List.filter_cons_of_pos hx] at h
      have ih : Leading p xs := leading_of_lt fun i a ha hp => by
        simpa using h (i + 1) a (by simpa using ha) hp
      intro i j a b hij ha hb hp
      cases i with
      | zero =>
        obtain rfl : x = a := by simpa using ha
        exact hx
      | succ i =>
        obtain ⟨j, rfl⟩ : ∃ j', j = j' + 1 := ⟨j - 1, by omega⟩
        exact ih i j a b (by omega) (by simpa using ha) (by simpa using hb) hp
    · -- nothing passes behind an element that does not
      rw [List.filter_cons_of_neg hx] at h
      have hnone : xs.filter p = [] := by
        by_contra hne
        obtain ⟨j, a, ha, hp, hle⟩ := exists_last_filter hne
        have := h (j + 1) a (by simpa using ha) hp
        omega
      intro i j a b hij ha hb hp
      obtain ⟨j, rfl⟩ : ∃ j', j = j' + 1 := ⟨j - 1, by omega⟩
      have hmem : b ∈ xs.filter p :=
        List.mem_filter.mpr ⟨List.mem_of_getElem? (by simpa using hb), hp⟩
      rw [hnone] at hmem
      exact absurd hmem (by simp)

theorem Holds.of_append_left {m : Memory} {o : ℕ} {as bs : List Cell} (h : Holds m o (as ++ bs)) :
    Holds m o as := by
  intro k b hk
  have hlt := (List.getElem?_eq_some_iff.mp hk).1
  exact h k b (by rw [List.getElem?_append_left hlt, hk])

/-- Where no two resources share a device, the entries are those of the resources that can connect,
in their order; only the memory domain is the resource's and not the interface's. -/
theorem entries_of_apart {w : Worker} {p : Packed} (hpack : scpAddressPack w = some p)
    (hne : w.connectable ≠ []) (hapart : (w.connectable.map w.key).Nodup) :
    ∃ u, scpAddressUnpack p = some (some u) ∧ u.entries.length = w.connectable.length ∧
      ∀ (i r : ℕ), w.connectable[i]? = some r → ∃ e, u.entries[i]? = some e ∧
        e.mdIndex = w.mdIndex r ∧
        (w.mdIndex r = w.mdIndex (w.iface r).rscIndex → Carries w u.mem e (w.iface r)) := by
  obtain ⟨devs, hdevs, -, hoks, hcount, hcells, hsize⟩ := scpAddressPack_eq hpack
  rw [foldl_addDevice_of_nodup w _ hapart] at hdevs
  have hlen : devs.length = w.connectable.length := by rw [hdevs, List.length_map]
  have hok : ∀ d ∈ devs.map w.deviceChunk, d.Ok ∧ d.ifaces.length = 1 := by
    intro d hd
    obtain ⟨dev, hdev, rfl⟩ := List.mem_map.mp hd
    refine ⟨hoks dev hdev, ?_⟩
    rw [hdevs] at hdev
    obtain ⟨r, -, rfl⟩ := List.mem_map.mp hdev
    rfl
  have hone : ifaceCount (devs.map w.deviceChunk) = devs.length := by
    rw [ifaceCount, List.map_congr_left (g := fun _ => 1) fun d hd => (hok d hd).2]
    simp [Function.comp_def]
  have hne' : devs.map w.deviceChunk ≠ [] := by
    rw [← List.length_pos_iff, List.length_map, hlen]
    exact List.length_pos_iff.mpr hne
  have hsize' : p.size = packedOffset p.addressCount + p.cells.length := by rw [hcount, hsize]
  refine ⟨_, scpAddressUnpack_eq hne' (fun d hd => (hok d hd).1)
    (by rw [hcount, List.length_map]) hcells hsize', ?_, ?_⟩
  · rw [length_devicesEntries, hone, hlen]
  · intro i r hr
    -- the entries end where the bytes of the devices begin
    have hstream := (Packed.streamAt hsize').clear (a := entryAt 0)
      (b := entryAt (ifaceCount (devs.map w.deviceChunk)))
      (by rw [hone, hcount, entryAt, packedOffset, Nat.mul_comm])
    rw [hcells] at hstream
    have hentries := devicesEntries_entryOf 0 hok hstream
    have hdev : (devs.map w.deviceChunk)[i]? =
        some (w.deviceChunk (PackedDevice.zero.add (w.iface r) r)) := by
      rw [hdevs, List.getElem?_map, List.getElem?_map, hr]
      rfl
    obtain ⟨hi, hget⟩ := List.getElem?_eq_some_iff.mp hdev
    obtain ⟨c, hc, hentry⟩ := hentries.get (by rw [hentries.length_eq]; exact hi) hi
    rw [List.get_eq_getElem, List.get_eq_getElem, hget] at hentry
    rw [List.get_eq_getElem, hget] at hc
    obtain rfl : w.ifaceChunk r = c := by
      simpa [Worker.deviceChunk, PackedDevice.add, PackedDevice.zero] using hc
    refine ⟨_, List.getElem?_eq_getElem (by rw [hentries.length_eq]; exact hi), hentry.mdIndex, ?_⟩
    intro hmd
    exact ⟨hentry.devAddr, hentry.ifaceAddr, hentry.ifaceAttr.of_append_left,
      hentry.mdIndex.trans hmd⟩

/-- Where a device has two interfaces, an entry lies over what the first one points to. -/
theorem entry_over_first {w : Worker} {p : Packed} {u : Unpacked}
    (hpack : scpAddressPack w = some p) (hne : w.connectable ≠ [])
    (hshared : ¬(w.connectable.map w.key).Nodup)
    (hunpack : scpAddressUnpack p = some (some u)) :
    ∀ e iface, u.entries[0]? = some e → ¬Carries w u.mem e iface := by
  obtain ⟨devs, hdevs, hg, hoks, hcount, hcells, hsize⟩ := scpAddressPack_eq hpack
  have hmore : ifaceCount (devs.map w.deviceChunk) = w.connectable.length := by
    rw [ifaceCount, List.map_map, ← hg.count]
    simp [Function.comp_def, Worker.deviceChunk]
  have hlt : devs.length < w.connectable.length := by
    have hle := List.toFinset_card_le (w.connectable.map w.key)
    have hcard := List.toFinset_card_of_nodup hg.keys_nodup
    rw [hg.keys, List.length_map] at hcard
    rw [List.length_map, hcard] at hle
    exact lt_of_le_of_ne hle (mt hg.length_eq_iff.mp hshared)
  have hdevs_ne : devs ≠ [] := by
    rintro rfl
    exact hne (List.eq_nil_of_length_eq_zero hg.count.symm)
  obtain ⟨dev, rest, rfl⟩ := List.exists_cons_of_ne_nil hdevs_ne
  have hu := @scpAddressUnpack_eq p ((dev :: rest).map w.deviceChunk) (by simp)
    (fun d hd => by
      obtain ⟨dev', hdev', rfl⟩ := List.mem_map.mp hd
      exact hoks dev' hdev')
    (by rw [hcount, List.length_map]) hcells (by rw [hcount, hsize])
  rw [hunpack, Option.some.injEq, Option.some.injEq] at hu
  subst hu
  obtain ⟨c, cs, hcs⟩ := List.exists_cons_of_ne_nil (hoks dev (by simp)).ifaces_ne_nil
  -- everything up to the end of the first entry behind the room is written over
  have hover : ∀ k, k < entrySize → ((p.mem.clear (entryAt 0) (entryAt (ifaceCount
      ((dev :: rest).map w.deviceChunk)))).read (packedOffset p.addressCount + k)) = none := by
    intro k hk
    rw [hmore]
    apply Memory.read_clear
    · simp only [entryAt, packedOffset]
      omega
    · simp only [entryAt, packedOffset, hcount, entrySize] at hk ⊢
      omega
  intro e iface he hcarries
  rw [List.map_cons, devicesEntries, hcs, ifacesEntries, List.cons_append,
    List.getElem?_cons_zero, Option.some.injEq] at he
  subst he
  have hhead := (w.deviceChunk dev).length_head (rest.map w.deviceChunk).isEmpty
  by_cases haddr : 0 < (w.deviceChunk dev).addr.length
  · have hdev := hcarries.devAddr
    simp only [DeviceHead.entry, DeviceChunk.headAt, if_pos haddr, PointsTo] at hdev
    obtain ⟨b, hb⟩ : ∃ b, iface.deviceAddr[0]? = some b :=
      ⟨_, List.getElem?_eq_getElem (List.length_pos_iff.mpr hdev.1)⟩
    have hread := hdev.2 0 b (by rw [List.getElem?_map, hb]; rfl)
    rw [Nat.add_zero, Nat.add_assoc, hover _ (by rw [entrySize]; split_ifs <;> omega)] at hread
    exact absurd hread (by simp)
  · have hattr := hcarries.ifaceAttr 0 (iface.attr.capFlags % 256) (by
      simp [IfaceAttr.cells, leBytes])
    simp only [DeviceHead.entry, Nat.add_zero] at hattr
    rw [hover _ (by rw [entrySize, hhead]; split_ifs <;> omega)] at hattr
    exact absurd hattr (by simp)

/-- The empty list is not marked as such: the unpacker reads behind the buffer. -/
theorem scpAddressUnpack_of_nil {w : Worker} {p : Packed} (hpack : scpAddressPack w = some p)
    (hnil : w.connectable = []) : scpAddressUnpack p = none := by
  obtain ⟨devs, hdevs, -, -, hcount, hcells, hsize⟩ := scpAddressPack_eq hpack
  rw [hnil] at hdevs
  obtain rfl : devs = [] := hdevs
  have hout : p.size = packedOffset p.addressCount := by rw [hsize, hcount, hcells]; rfl
  rw [scpAddressUnpack]
  simp [Memory.read, Packed.mem, hout]

/-- An interface that can connect has the rank of its resource among those that can. -/
theorem Worker.connectable_getElem {w : Worker} (hlead : Leading Iface.canConnect w.ifaces)
    {i : ℕ} {iface : Iface} (hi : w.ifaces[i]? = some iface) (hconn : iface.canConnect) :
    ∃ r, w.tlBitmap[i]? = some r ∧ w.connectable[i]? = some r ∧ w.iface r = iface := by
  have hmap := w.map_iface
  obtain ⟨r, hr, hiface⟩ : ∃ r, w.tlBitmap[i]? = some r ∧ w.iface r = iface := by
    rw [← hmap, List.getElem?_map, Option.map_eq_some_iff] at hi
    exact hi
  have hlead' : Leading (fun r => (w.iface r).canConnect) w.tlBitmap := by
    intro i j a b hij ha hb hp
    apply hlead i j (w.iface a) (w.iface b) hij _ _ hp
    · rw [← hmap, List.getElem?_map, ha, Option.map_some]
    · rw [← hmap, List.getElem?_map, hb, Option.map_some]
  exact ⟨r, hr, hlead'.getElem_filter hr (by rw [hiface]; exact hconn), hiface⟩

theorem connectable_eq_nil_iff (w : Worker) :
    w.connectable = [] ↔ ¬∃ iface ∈ w.ifaces, iface.canConnect = true := by
  rw [← List.length_eq_zero_iff, w.length_connectable, List.length_eq_zero_iff,
    List.filter_eq_nil_iff]
  push Not
  simp

theorem RoundTrips.inOrder {w : Worker} {p : Packed} (hpack : scpAddressPack w = some p)
    (h : RoundTrips w p) : InOrder w := by
  obtain ⟨-, u, hunpack, hcount, hentries⟩ := h
  rw [← w.length_connectable] at hcount
  have hne : w.connectable ≠ [] := by
    intro hnil
    rw [scpAddressUnpack_of_nil hpack hnil] at hunpack
    exact absurd hunpack (by simp)
  have hlead : Leading Iface.canConnect w.ifaces := by
    apply leading_of_lt
    intro i iface hi hconn
    obtain ⟨e, he, -⟩ := hentries i iface hi hconn
    rw [← w.length_connectable, ← hcount]
    exact (List.getElem?_eq_some_iff.mp he).1
  have hsome : ∃ iface ∈ w.ifaces, iface.canConnect = true := by
    by_contra hnone
    exact hne ((connectable_eq_nil_iff w).mpr hnone)
  have hapart : (w.connectable.map w.key).Nodup := by
    by_contra hshared
    obtain ⟨iface, hi, hconn⟩ := hlead.head hsome
    obtain ⟨e, he, hcarries⟩ := hentries 0 iface hi hconn
    exact entry_over_first hpack hne hshared hunpack e iface he hcarries
  refine ⟨hsome, hlead, hapart, ?_⟩
  intro i iface r hi hconn hr
  obtain ⟨r', hr', hcr, -⟩ := w.connectable_getElem hlead hi hconn
  obtain rfl : r' = r := Option.some.inj (hr'.symm.trans hr)
  obtain ⟨u', hunpack', -, hmd⟩ := entries_of_apart hpack hne hapart
  obtain rfl : u = u' := by simpa using hunpack.symm.trans hunpack'
  obtain ⟨e, he, hcarries⟩ := hentries i iface hi hconn
  obtain ⟨e', he', hindex, -⟩ := hmd i r' hcr
  obtain rfl : e = e' := Option.some.inj (he.symm.trans he')
  rw [← hindex, hcarries.mdIndex]

theorem InOrder.roundTrips {w : Worker} {p : Packed} (hpack : scpAddressPack w = some p)
    (h : InOrder w) : RoundTrips w p := by
  have hne : w.connectable ≠ [] := fun hnil =>
    (connectable_eq_nil_iff w).mp hnil h.exists_connectable
  obtain ⟨devs, -, -, -, haddr, -, hsize⟩ := scpAddressPack_eq hpack
  obtain ⟨u, hunpack, hcount, hentries⟩ := entries_of_apart hpack hne h.devices_apart
  refine ⟨by rw [hsize, haddr], u, hunpack, by rw [hcount, w.length_connectable], ?_⟩
  intro i iface hi hconn
  obtain ⟨r, hr, hcr, rfl⟩ := w.connectable_getElem h.connectable_first hi hconn
  obtain ⟨e, he, -, hcarries⟩ := hentries i r hcr
  exact ⟨e, he, hcarries (h.mdIndex i _ r hi hconn hr)⟩

/-- The address of a worker makes the round trip if and only if some interface can connect, those
that can stand in front, no two of them share memory domain and device, and each of them has the
memory domain of the resource with its own rank among the bits of the worker. -/
theorem roundTrips_iff_inOrder (w : Worker) (p : Packed) (hpack : scpAddressPack w = some p) :
    RoundTrips w p ↔ InOrder w :=
  ⟨RoundTrips.inOrder hpack, InOrder.roundTrips hpack⟩

/-- A worker whose two interfaces, one for each resource, stand in the given order; each has a
memory domain of its own, numbered by its place in the array. -/
def twoIfaces (swapped : Bool) : Worker where
  tlBitmap := [0, 1]
  mdIndex r := if swapped then 1 - r else r
  devName r := if r = 0 then "hns_0" else "hns_1"
  mdAlloc _ := false
  mdReg _ := true
  ifaces :=
    let iface (rsc : ℕ) : Iface :=
      ⟨⟨connectToEp, 0, 0, 0, 0, true, 0, 0, 1⟩, rsc, [7 + rsc], [11 + rsc]⟩
    if swapped then [iface 1, iface 0] else [iface 0, iface 1]
  ascending := by decide
  perm := by cases swapped <;> decide

theorem roundTrips_iff_inOrder_two : ∃ p, scpAddressPack (twoIfaces false) = some p ∧
    RoundTrips (twoIfaces false) p := by
  obtain ⟨p, hp⟩ := Option.isSome_iff_exists.mp
    (show (scpAddressPack (twoIfaces false)).isSome by decide +kernel)
  refine ⟨p, hp, (roundTrips_iff_inOrder _ p hp).mpr ⟨?_, ?_, ?_, ?_⟩⟩
  · exact ⟨_, List.mem_cons_self, by decide⟩
  · intro i j a b _ ha _ _
    have hall : ∀ iface ∈ (twoIfaces false).ifaces, iface.canConnect = true := by decide
    exact hall a (List.mem_of_getElem? ha)
  · decide +kernel
  · rintro (_ | _ | i) iface r hi - hr
    · obtain ⟨rfl, rfl⟩ := And.intro (Option.some.inj hi) (Option.some.inj hr)
      rfl
    · obtain ⟨rfl, rfl⟩ := And.intro (Option.some.inj hi) (Option.some.inj hr)
      rfl
    · simp [twoIfaces] at hr

/-- When the sorting has swapped the two interfaces, each entry has the memory domain of the
other. -/
theorem swapped_not_roundTrips : ∃ p, scpAddressPack (twoIfaces true) = some p ∧
    ¬RoundTrips (twoIfaces true) p := by
  obtain ⟨p, hp⟩ := Option.isSome_iff_exists.mp
    (show (scpAddressPack (twoIfaces true)).isSome by decide +kernel)
  refine ⟨p, hp, fun h => ?_⟩
  have hmd := (h.inOrder hp).mdIndex 0 _ 0 rfl (by decide) rfl
  exact absurd hmd (by decide)

end Kucg.Stars.Address
