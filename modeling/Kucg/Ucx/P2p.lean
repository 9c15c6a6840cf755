import Kucg.Core.Status
import Kucg.Lib.Results
import Kucg.Lib.Sched
import Mathlib.Tactic

/-! Buffers and the point-to-point calls of `planc_ucx_p2p.c`, as commands of a program.

    The calls are taken to succeed. A message carries the contents of its buffer at the post: the
    library below reads a send buffer at some time up to the completion of the send, and the
    channels are reliable and do not reorder the messages of one sender and tag. -/

namespace Kucg.Ucx

open Kucg.Core Kucg.Lib

/-- An element of a buffer, and a pointer: the buffer and an offset in elements. -/
abbrev Cell (B : Type) := B × ℕ

/-- The `count` elements from `p` on. -/
def span {B : Type} (p : Cell B) (count : ℕ) : List (Cell B) :=
  (List.range count).map fun j => (p.1, p.2 + j)

/-- The value of an `int32_t`. -/
def s32 (x : ℤ) : ℤ := x.bmod (2 ^ 32)

theorem s32_eq {x : ℤ} (h₁ : -2 ^ 31 ≤ x) (h₂ : x < 2 ^ 31) : s32 x = x :=
  Int.bmod_eq_of_le_mul_two (by norm_num; omega) (by norm_num; omega)

/-- `ucg_vgroup_t`, with `ucg_rank_map_eval` of its rank map. -/
structure VGroup where
  size : ℕ
  myrank : ℕ
  rankMap : ℕ → ℕ

section Calls

variable {ι β : Type}

/-- `ucg_planc_ucx_p2p_isend`; `UCG_INVALID_RANK` is `none`. -/
def p2pIsend (buffer : List ι) (vrank : Option ℕ) (vgroup : VGroup) : Prog ι β Status :=
  match vrank with
  | none => .pure .errInvalidParam
  | some vrank => .isend (vgroup.rankMap vrank) buffer (.pure .ok)

/-- `ucg_planc_ucx_p2p_irecv`; the request is told apart by a number. -/
def p2pIrecv (buffer : List ι) (vrank : Option ℕ) (vgroup : VGroup) (request : ℕ) :
    Prog ι β Status :=
  match vrank with
  | none => .pure .errInvalidParam
  | some vrank => .irecv request (vgroup.rankMap vrank) buffer (.pure .ok)

@[simp] theorem p2pIsend_none {buffer : List ι} {vgroup : VGroup} :
    (p2pIsend buffer none vgroup : Prog ι β Status) = pure .errInvalidParam := rfl

@[simp] theorem p2pIrecv_none {buffer : List ι} {vgroup : VGroup} {request : ℕ} :
    (p2pIrecv buffer none vgroup request : Prog ι β Status) = pure .errInvalidParam := rfl

/-- `ucg_planc_ucx_p2p_test`. -/
def p2pTest (request : ℕ) : Prog ι β Status :=
  .test request fun done => .pure (if done then .ok else .inprogress)

/-- `ucg_planc_ucx_p2p_testall`. -/
def p2pTestall : Prog ι β Status :=
  .testall fun done => .pure (if done then .ok else .inprogress)

/-- `ucg_op_reduce`: `target` becomes `source` combined with `target`. -/
def opReduce (op : β → β → β) (source target : List ι) : Prog ι β Unit :=
  .zip op source target (.pure ())

/-- `ucg_dt_memcpy` between buffers of one datatype. -/
def dtMemcpy (dst src : List ι) : Prog ι β Unit := .zip (fun s _ => s) src dst (.pure ())

variable [DecidableEq ι] {g : Ghost ι β}

@[simp] theorem wp_p2pIsend {buffer : List ι} {vrank : ℕ} {vgroup : VGroup}
    {Q : Status → Ghost ι β → Prop} : (p2pIsend buffer (some vrank) vgroup).wp Q g ↔
      (∀ i ∈ buffer, g.Free i) ∧ ∃ know rest,
        g.todo = .send (vgroup.rankMap vrank) (buffer.map g.mem) know :: rest ∧ know ⊆ g.know ∧
        Q .ok { g with todo := rest } := Iff.rfl

@[simp] theorem wp_p2pIrecv {buffer : List ι} {vrank request : ℕ} {vgroup : VGroup}
    {Q : Status → Ghost ι β → Prop} : (p2pIrecv buffer (some vrank) vgroup request).wp Q g ↔
      (∀ i ∈ buffer, g.Free i) ∧ ∃ vals know rest,
        g.todo = .recv (vgroup.rankMap vrank) vals know :: rest ∧ vals.length ≤ buffer.length ∧
        Q .ok { g with
          mem := writeCells buffer vals g.mem,
          pend := g.pend ++ [⟨request, buffer.take vals.length, know⟩], todo := rest } := Iff.rfl

@[simp] theorem wp_p2pTest {request : ℕ} {Q : Status → Ghost ι β → Prop} :
    (p2pTest request).wp Q g ↔ Q .ok (g.done request) ∧ Q .inprogress g := Iff.rfl

@[simp] theorem wp_p2pTestall {Q : Status → Ghost ι β → Prop} :
    p2pTestall.wp Q g ↔ Q .ok g.doneAll ∧ Q .inprogress g := Iff.rfl

@[simp] theorem wp_opReduce {op : β → β → β} {source target : List ι}
    {Q : Unit → Ghost ι β → Prop} : (opReduce op source target).wp Q g ↔
      (∀ i ∈ source, g.Free i) ∧ (∀ i ∈ target, g.Free i) ∧
        Q () { g with mem := zipCells op source target g.mem } := Iff.rfl

@[simp] theorem wp_dtMemcpy {dst src : List ι} {Q : Unit → Ghost ι β → Prop} :
    (dtMemcpy dst src).wp Q g ↔ (∀ i ∈ src, g.Free i) ∧ (∀ i ∈ dst, g.Free i) ∧
      Q () { g with mem := zipCells (fun s _ => s) src dst g.mem } := Iff.rfl

section Exec

omit [DecidableEq ι]

variable {moved : Bool} {cs : Sched ι β}

@[simp] theorem exec_p2pIsend {buffer : List ι} {vrank : ℕ} {vgroup : VGroup}
    {K : Bool → Status → Sched ι β → Prop} :
    (p2pIsend buffer (some vrank) vgroup).Exec K moved cs ↔
      ∃ cs', cs.skip = .send (vgroup.rankMap vrank) buffer :: cs' ∧ K true .ok cs' := Iff.rfl

@[simp] theorem exec_p2pIrecv {buffer : List ι} {vrank request : ℕ} {vgroup : VGroup}
    {K : Bool → Status → Sched ι β → Prop} :
    (p2pIrecv buffer (some vrank) vgroup request).Exec K moved cs ↔
      ∃ cs', cs.skip = .recv request (vgroup.rankMap vrank) buffer :: cs' ∧ K true .ok cs' :=
  Iff.rfl

/-- A send that is the next command of the schedule. -/
theorem exec_isend_cons {buffer src : List ι} {vrank d : ℕ} {vgroup : VGroup}
    {K : Bool → Status → Sched ι β → Prop} (hd : vgroup.rankMap vrank = d) (hsrc : buffer = src)
    (h : K true .ok cs) :
      (p2pIsend buffer (some vrank) vgroup).Exec K moved (.send d src :: cs) := by
  subst hd hsrc
  exact ⟨cs, rfl, h⟩

/-- A send behind a pause. -/
theorem exec_isend_skip {buffer src : List ι} {vrank d : ℕ} {vgroup : VGroup}
    {K : Bool → Status → Sched ι β → Prop} {pre : Sched ι β} (hpre : pre = [] ∨ pre = [.pause])
    (hd : vgroup.rankMap vrank = d) (hsrc : buffer = src) (h : K true .ok cs) :
    (p2pIsend buffer (some vrank) vgroup).Exec K moved (pre ++ .send d src :: cs) := by
  subst hd hsrc
  obtain rfl | rfl := hpre <;> exact ⟨cs, rfl, h⟩

/-- A receive that is the next command. -/
theorem exec_irecv_cons {buffer dst : List ι} {vrank request s : ℕ} {vgroup : VGroup}
    {K : Bool → Status → Sched ι β → Prop} (hs : vgroup.rankMap vrank = s) (hdst : buffer = dst)
    (h : K true .ok cs) :
    (p2pIrecv buffer (some vrank) vgroup request).Exec K moved (.recv request s dst :: cs) := by
  subst hs hdst
  exact ⟨cs, rfl, h⟩

/-- A test that the schedule waits for. -/
theorem exec_testall_wait {K : Bool → Status → Sched ι β → Prop}
    (hfalse : K true .inprogress (.wait :: cs)) (htrue : K true .ok cs) :
    (p2pTestall : Prog ι β Status).Exec K moved (.wait :: cs) :=
  ⟨hfalse, Or.inr ⟨cs, rfl, htrue⟩⟩

@[simp] theorem exec_p2pTestall {K : Bool → Status → Sched ι β → Prop} :
    p2pTestall.Exec K moved cs ↔ K true .inprogress cs ∧
      (K moved .ok cs ∨ ∃ cs', cs.skip = .wait :: cs' ∧ K true .ok cs') := Iff.rfl

@[simp] theorem exec_dtMemcpy {dst src : List ι} {K : Bool → Unit → Sched ι β → Prop} :
    (dtMemcpy dst src).Exec K moved cs ↔
      ∃ cs', cs.skip = .zip (fun s _ => s) src dst :: cs' ∧ K true () cs' := Iff.rfl

end Exec

section Results

omit [DecidableEq ι]

variable {pre : List (Post ι)} {Q : Status → List (Post ι) → Prop} {R : Status → Prop}

@[simp] theorem always_p2pIsend {buffer : List ι} {vrank : ℕ} {vgroup : VGroup} :
    (p2pIsend buffer (some vrank) vgroup : Prog ι β Status).Always Q pre ↔
      Q .ok (pre ++ [.send (vgroup.rankMap vrank) buffer]) := Iff.rfl

@[simp] theorem always_p2pIrecv {buffer : List ι} {vrank request : ℕ} {vgroup : VGroup} :
    (p2pIrecv buffer (some vrank) vgroup request : Prog ι β Status).Always Q pre ↔
      Q .ok (pre ++ [.recv (vgroup.rankMap vrank) buffer]) := Iff.rfl

@[simp] theorem always_p2pTestall : (p2pTestall : Prog ι β Status).Always Q pre ↔
    Q .ok pre ∧ Q .inprogress pre :=
  ⟨fun h => ⟨h true, h false⟩, fun h done => by cases done with
    | false => exact h.2
    | true => exact h.1⟩

@[simp] theorem always_opReduce {op : β → β → β} {source target : List ι}
    {Q : Unit → List (Post ι) → Prop} :
    (opReduce op source target).Always Q pre ↔ Q () pre := Iff.rfl

@[simp] theorem always_dtMemcpy {dst src : List ι} {Q : Unit → List (Post ι) → Prop} :
    (dtMemcpy dst src : Prog ι β Unit).Always Q pre ↔ Q () pre := Iff.rfl

@[simp] theorem can_p2pIsend {buffer : List ι} {vrank : ℕ} {vgroup : VGroup} :
    (p2pIsend buffer (some vrank) vgroup : Prog ι β Status).Can R ↔ R .ok := Iff.rfl

@[simp] theorem can_p2pIrecv {buffer : List ι} {vrank request : ℕ} {vgroup : VGroup} :
    (p2pIrecv buffer (some vrank) vgroup request : Prog ι β Status).Can R ↔ R .ok := Iff.rfl

theorem can_p2pTestall (h : R .ok) : (p2pTestall : Prog ι β Status).Can R := ⟨true, h⟩

@[simp] theorem can_opReduce {op : β → β → β} {source target : List ι} {R : Unit → Prop} :
    (opReduce op source target).Can R ↔ R () := Iff.rfl

@[simp] theorem can_dtMemcpy {dst src : List ι} {R : Unit → Prop} :
    (dtMemcpy dst src : Prog ι β Unit).Can R ↔ R () := Iff.rfl

end Results

end Calls

/-! ### Contents of buffers -/

section Contents

variable {B β : Type}

/-- The message that carries `x`. -/
def vec (count : ℕ) (x : ℕ → β) : List β := (List.range count).map x

/-- The `count` elements from `p` on are those of `x`. -/
def Holds (m : Cell B → β) (p : Cell B) (count : ℕ) (x : ℕ → β) : Prop :=
  ∀ j < count, m (p.1, p.2 + j) = x j

@[simp] theorem length_span (p : Cell B) (count : ℕ) : (span p count).length = count := by
  simp [span]

@[simp] theorem length_vec (count : ℕ) (x : ℕ → β) : (vec count x).length = count := by
  simp [vec]

theorem take_span (p : Cell B) {c d : ℕ} (h : d ≤ c) : (span p c).take d = span p d := by
  rw [span, span, ← List.map_take, List.take_range, Nat.min_eq_left h]

theorem mem_span {p i : Cell B} {count : ℕ} :
    i ∈ span p count ↔ i.1 = p.1 ∧ p.2 ≤ i.2 ∧ i.2 < p.2 + count := by
  simp only [span, List.mem_map, List.mem_range]
  constructor
  · rintro ⟨j, hj, rfl⟩
    exact ⟨rfl, by simp, by simpa using hj⟩
  · rintro ⟨h₁, h₂, h₃⟩
    exact ⟨i.2 - p.2, by omega, Prod.ext h₁.symm (by simp; omega)⟩

@[simp] theorem getElem_span (p : Cell B) (count j : ℕ) (h : j < (span p count).length) :
    (span p count)[j] = (p.1, p.2 + j) := by
  simp [span]

@[simp] theorem getElem_vec (count : ℕ) (x : ℕ → β) (j : ℕ) (h : j < (vec count x).length) :
    (vec count x)[j] = x j := by
  simp [vec]

theorem nodup_span (p : Cell B) (count : ℕ) : (span p count).Nodup := by
  refine List.Nodup.map (fun j j' h => ?_) List.nodup_range
  have := congrArg Prod.snd h
  simpa using this

/-- The two pieces of memory do not overlap. -/
def Apart (p : Cell B) (c : ℕ) (q : Cell B) (d : ℕ) : Prop :=
  p.1 ≠ q.1 ∨ p.2 + c ≤ q.2 ∨ q.2 + d ≤ p.2

theorem Apart.symm {p q : Cell B} {c d : ℕ} (h : Apart p c q d) : Apart q d p c := by
  unfold Apart at *
  tauto

theorem Apart.of_le {p q : Cell B} {c c' d : ℕ} (h : Apart p c q d) (hle : c' ≤ c) :
    Apart p c' q d := by
  rcases h with h | h | h
  · exact Or.inl h
  · exact Or.inr (Or.inl (by omega))
  · exact Or.inr (Or.inr h)

theorem Apart.notMem {p q i : Cell B} {c d : ℕ} (h : Apart p c q d) (hi : i ∈ span p c) :
    i ∉ span q d := by
  rw [mem_span] at *
  rintro ⟨h₁, h₂, h₃⟩
  rcases h with h | h | h
  · exact h (hi.1.symm.trans h₁)
  · omega
  · omega

theorem Holds.map_span {m : Cell B → β} {p : Cell B} {count : ℕ} {x : ℕ → β}
    (h : Holds m p count x) : (span p count).map m = vec count x := by
  rw [span, vec, List.map_map]
  exact List.map_congr_left fun j hj => h j (List.mem_range.mp hj)

theorem Holds.congr {m m' : Cell B → β} {p : Cell B} {count : ℕ} {x : ℕ → β}
    (h : Holds m p count x) (heq : ∀ i ∈ span p count, m' i = m i) : Holds m' p count x := by
  intro j hj
  have hmem : (p.1, p.2 + j) ∈ span p count := mem_span.mpr ⟨rfl, by simp, by simpa using hj⟩
  rw [heq _ hmem, h j hj]

variable [DecidableEq B]

theorem holds_write (m : Cell B → β) (p : Cell B) (count : ℕ) (x : ℕ → β) :
    Holds (writeCells (span p count) (vec count x) m) p count x := by
  intro j hj
  have hlen : j < (vec count x).length := by rwa [length_vec]
  have h := writeCells_getElem (m := m) (nodup_span p count) j (by simpa using hj) hlen
  rwa [getElem_span, getElem_vec] at h

/-- A message with fewer elements than there is room for. -/
theorem holds_write_le (m : Cell B → β) (p : Cell B) {c d : ℕ} (h : c ≤ d) (x : ℕ → β) :
    Holds (writeCells (span p d) (vec c x) m) p c x := by
  rw [← writeCells_take, length_vec, take_span p h]
  exact holds_write m p c x

theorem Holds.write {m : Cell B → β} {p q : Cell B} {c d : ℕ} {x : ℕ → β} {vals : List β}
    (h : Holds m p c x) (hap : Apart p c q d) : Holds (writeCells (span q d) vals m) p c x :=
  h.congr fun _ hi => writeCells_of_notMem (hap.notMem hi)

theorem Holds.write_le {m : Cell B → β} {p q : Cell B} {c d e : ℕ} {x y : ℕ → β}
    (h : Holds m p c x) (hap : Apart p c q d) (hle : d ≤ e) :
    Holds (writeCells (span q e) (vec d y) m) p c x := by
  rw [← writeCells_take, length_vec, take_span q hle]
  exact h.write hap

theorem Holds.zip_source {f : β → β → β} {m : Cell B → β} {p q : Cell B} {c d : ℕ} {x : ℕ → β}
    {ss : List (Cell B)} (h : Holds m p c x) (hap : Apart p c q d) :
    Holds (zipCells f ss (span q d) m) p c x :=
  h.congr fun _ hi => zipCells_of_notMem (hap.notMem hi)

theorem Holds.zip {f : β → β → β} {m : Cell B → β} {p q : Cell B} {c : ℕ} {x y : ℕ → β}
    (hp : Holds m p c x) (hq : Holds m q c y) (hap : Apart p c q c) :
    Holds (zipCells f (span p c) (span q c) m) q c fun j => f (x j) (y j) := by
  intro j hj
  have hlen : j < (span p c).length := by simpa using hj
  have h := zipCells_getElem (f := f) (m := m) (nodup_span q c) (fun i hi => hap.notMem hi) j
    (by simpa using hj) hlen
  rw [getElem_span, getElem_span] at h
  rw [h, hp j hj, hq j hj]

end Contents

end Kucg.Ucx
