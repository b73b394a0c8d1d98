import OnlineAuction.Lib.RecordIO
import OnlineAuction.Lib.Refinement
import OnlineAuction.Lib.SigSum
import Mathlib.Data.Fintype.Card

/-!
# OnlineAuction.Lib.SharedFiles

Files of records that threads work on at the same time.

In `fileSystem` every `open`, `lseek`, `read`, `write` and `close` of a thread is a step; the
threads share the disk and the table of descriptors.  In `recordSystem` every access to a record
is a step.  In both, the threads may make any other calls besides (`other`).

A thread that has a descriptor open keeps it, whatever the others do (`Owns`), and finds a free
one as long as there are as many as threads (`Descriptors.free`).  So of the calls that a program
makes on its descriptor only those that read, write or measure the file count, and each of them is
an access to a record: the rules `Does.*` say which.
-/

namespace OnlineAuction.Posix

/-! ## descriptors -/

section Descriptors

variable {ι π : Type} {taken : Finset Nat} {n : Nat} {table : List (Option (OpenFile π))}
  {holds : ι → Option Nat} {t : ι} {fd : Nat} {f : OpenFile π}

/-- The descriptors in use are those of `taken` and one of each thread that has a file open. -/
structure Descriptors (taken : Finset Nat) (n : Nat) (table : List (Option (OpenFile π)))
    (holds : ι → Option Nat) : Prop where
  length : table.length = n
  inUse : ∀ t fd, holds t = some fd → ∃ f, table[fd]? = some (some f)
  apart : ∀ t u fd, holds t = some fd → holds u = some fd → t = u
  known : ∀ fd f, table[fd]? = some (some f) → fd ∈ taken ∨ ∃ t, holds t = some fd

/-- A thread that has no file open finds a free descriptor. -/
theorem Descriptors.free [Fintype ι] [DecidableEq ι] (h : Descriptors taken n table holds)
    (hroom : taken.card + Fintype.card ι ≤ n) (ht : holds t = none) :
    ∃ fd, table.findIdx? (·.isNone) = some fd := by
  by_contra hnone
  have hall : ∀ entry ∈ table, entry.isNone = false := by
    cases hfind : table.findIdx? (·.isNone) with
    | some fd => exact absurd ⟨fd, hfind⟩ hnone
    | none => exact List.findIdx?_eq_none_iff.mp hfind
  have hsub : Finset.range n ⊆
      taken ∪ (Finset.univ.erase t).image fun u => (holds u).getD 0 := by
    intro fd hfd
    have hlt : fd < table.length := h.length ▸ Finset.mem_range.mp hfd
    have hsome := hall table[fd] (List.getElem_mem hlt)
    obtain ⟨f, hf⟩ : ∃ f, table[fd] = some f := by
      cases hentry : table[fd] with
      | none => rw [hentry] at hsome; cases hsome
      | some f => exact ⟨f, rfl⟩
    rcases h.known fd f (by rw [List.getElem?_eq_getElem hlt, hf]) with hin | ⟨u, hu⟩
    · exact Finset.mem_union_left _ hin
    · have hne : u ≠ t := by
        rintro rfl
        rw [ht] at hu
        cases hu
      exact Finset.mem_union_right _ (Finset.mem_image.mpr
        ⟨u, Finset.mem_erase.mpr ⟨hne, Finset.mem_univ u⟩, by rw [hu]; rfl⟩)
  have hcard : n ≤ taken.card + (Fintype.card ι - 1) := by
    calc n = (Finset.range n).card := (Finset.card_range n).symm
      _ ≤ (taken ∪ (Finset.univ.erase t).image fun u => (holds u).getD 0).card :=
        Finset.card_le_card hsub
      _ ≤ taken.card + ((Finset.univ.erase t).image fun u => (holds u).getD 0).card :=
        Finset.card_union_le _ _
      _ ≤ taken.card + (Finset.univ.erase t).card :=
        Nat.add_le_add_left Finset.card_image_le _
      _ = taken.card + (Fintype.card ι - 1) := by
        rw [Finset.card_erase_of_mem (Finset.mem_univ t), Finset.card_univ]
  have hpos : 0 < Fintype.card ι := Fintype.card_pos_iff.mpr ⟨t⟩
  omega

/-- A thread opens a file. -/
theorem Descriptors.open [DecidableEq ι] (h : Descriptors taken n table holds)
    (ht : holds t = none) (hfd : table[fd]? = some none) :
    Descriptors taken n (table.set fd (some f)) (Function.update holds t (some fd)) := by
  have hlt : fd < table.length := (List.getElem?_eq_some_iff.mp hfd).1
  have hfresh (u : ι) : holds u ≠ some fd := by
    intro hu
    obtain ⟨f, hf⟩ := h.inUse u fd hu
    rw [hfd] at hf
    cases hf
  refine ⟨by rw [List.length_set, h.length], fun u fd' hu => ?_, fun u v fd' hu hv => ?_,
    fun fd' f' hentry => ?_⟩
  · by_cases hut : u = t
    · rw [hut, Function.update_self] at hu
      obtain rfl := Option.some.inj hu
      exact ⟨f, List.getElem?_set_self hlt⟩
    · rw [Function.update_of_ne hut] at hu
      have hne : fd ≠ fd' := fun heq => hfresh u (heq ▸ hu)
      rw [List.getElem?_set_ne hne]
      exact h.inUse u fd' hu
  · by_cases hut : u = t <;> by_cases hvt : v = t
    · rw [hut, hvt]
    · rw [hut, Function.update_self] at hu
      rw [Function.update_of_ne hvt, ← hu] at hv
      exact absurd hv (hfresh v)
    · rw [hvt, Function.update_self] at hv
      rw [Function.update_of_ne hut, ← hv] at hu
      exact absurd hu (hfresh u)
    · rw [Function.update_of_ne hut] at hu
      rw [Function.update_of_ne hvt] at hv
      exact h.apart u v fd' hu hv
  · by_cases hne : fd = fd'
    · exact .inr ⟨t, by rw [Function.update_self, hne]⟩
    · rw [List.getElem?_set_ne hne] at hentry
      refine (h.known fd' f' hentry).imp id fun ⟨u, hu⟩ => ⟨u, ?_⟩
      have hut : u ≠ t := by
        rintro rfl
        rw [ht] at hu
        cases hu
      rw [Function.update_of_ne hut, hu]

/-- A thread goes on with its file. -/
theorem Descriptors.set (h : Descriptors taken n table holds) (ht : holds t = some fd) :
    Descriptors taken n (table.set fd (some f)) holds := by
  obtain ⟨f₀, hf₀⟩ := h.inUse t fd ht
  have hlt : fd < table.length := (List.getElem?_eq_some_iff.mp hf₀).1
  refine ⟨by rw [List.length_set, h.length], fun u fd' hu => ?_, h.apart, fun fd' f' hentry => ?_⟩
  · by_cases hne : fd = fd'
    · exact ⟨f, hne ▸ List.getElem?_set_self hlt⟩
    · rw [List.getElem?_set_ne hne]
      exact h.inUse u fd' hu
  · by_cases hne : fd = fd'
    · exact .inr ⟨t, hne ▸ ht⟩
    · rw [List.getElem?_set_ne hne] at hentry
      exact h.known fd' f' hentry

/-- A thread closes its file. -/
theorem Descriptors.close [DecidableEq ι] (h : Descriptors taken n table holds)
    (ht : holds t = some fd) :
    Descriptors taken n (table.set fd none) (Function.update holds t none) := by
  obtain ⟨f₀, hf₀⟩ := h.inUse t fd ht
  have hlt : fd < table.length := (List.getElem?_eq_some_iff.mp hf₀).1
  have hother {u : ι} {fd' : Nat} (hu : Function.update holds t none u = some fd') :
      u ≠ t ∧ holds u = some fd' := by
    by_cases hut : u = t
    · rw [hut, Function.update_self] at hu
      cases hu
    · exact ⟨hut, by rwa [Function.update_of_ne hut] at hu⟩
  refine ⟨by rw [List.length_set, h.length], fun u fd' hu => ?_, fun u v fd' hu hv =>
    h.apart u v fd' (hother hu).2 (hother hv).2, fun fd' f' hentry => ?_⟩
  · obtain ⟨hut, hu⟩ := hother hu
    have hne : fd ≠ fd' := fun heq => hut (h.apart u t fd' hu (heq ▸ ht))
    rw [List.getElem?_set_ne hne]
    exact h.inUse u fd' hu
  · have hne : fd ≠ fd' := by
      rintro rfl
      rw [List.getElem?_set_self hlt] at hentry
      cases hentry
    rw [List.getElem?_set_ne hne] at hentry
    refine (h.known fd' f' hentry).imp id fun ⟨u, hu⟩ => ⟨u, ?_⟩
    have hut : u ≠ t := by
      rintro rfl
      exact hne (Option.some.inj (ht.symm.trans hu))
    rw [Function.update_of_ne hut, hu]

end Descriptors

/-! ## the two machines -/

section Machines

variable {ι π υ : Type} [DecidableEq ι] [DecidableEq π] {O : Sig}

/-- The disk, and the descriptor that each thread has open (which no call looks at). -/
structure SharedDisk (ι π : Type) where
  disk : Disk π
  holds : ι → Option Nat

/-- The descriptors that the threads have open after a call of `t`. -/
def heldAfter (t : ι) (holds : ι → Option Nat) : (c : FileCall π) → c.Res → ι → Option Nat
  | .open _ _, (r : Int) => if r < 0 then holds else Function.update holds t (some r.toNat)
  | .close _, (r : Int) => if r < 0 then holds else Function.update holds t none
  | _, _ => holds

/-- Threads whose steps are calls on files, and other calls. -/
def fileSystem (other : System O ι υ) :
    System ((PosixSig π).sum O) ι (SharedDisk ι π × υ) where
  step
    | t, .inl c, s => some ((Disk.exec c s.1.disk).1,
        ⟨(Disk.exec c s.1.disk).2, heldAfter t s.1.holds c (Disk.exec c s.1.disk).1⟩, s.2)
    | t, .inr o, s => (other.step t o s.2).map fun x => (x.1, s.1, x.2)
  env s s' := s'.1 = s.1 ∧ other.env s.2 s'.2

variable (size : π → Nat)

/-- The records of every file. -/
abbrev Records : Type := (path : π) → List (CharArray (size path))

/-- Accesses to the records of a file. -/
inductive RecordCall
  | readAt (path : π) (i : Nat)
  | writeAt (path : π) (i : Nat) (x : CharArray (size path))
  | append (path : π) (x : CharArray (size path))
  | count (path : π)

variable {size}

/-- The answers. -/
abbrev RecordCall.Res : RecordCall size → Type
  | .readAt path _ => Option (CharArray (size path))
  | .count _ => Nat
  | .writeAt _ _ _ | .append _ _ => Unit

/-- The signature of the accesses. -/
abbrev RecordSig (size : π → Nat) : Sig := ⟨RecordCall size, RecordCall.Res⟩

/-- What the accesses answer and do. -/
def RecordCall.exec : Prog.Handler (RecordSig size) (Records size)
  | .readAt path i, l => ((l path)[i]?, l)
  | .writeAt path i x, l =>
      ((), Function.update l path (OnlineAuction.writeAt (.zero (size path)) (l path) i x))
  | .append path x, l => ((), Function.update l path (l path ++ [x]))
  | .count path, l => ((l path).length, l)

/-- Threads whose steps are accesses to records, and other calls. -/
def recordSystem (other : System O ι υ) :
    System ((RecordSig size).sum O) ι (Records size × υ) where
  step
    | _, .inl c, x => some ((RecordCall.exec c x.1).1, (RecordCall.exec c x.1).2, x.2)
    | t, .inr o, x => (other.step t o x.2).map fun y => (y.1, x.1, y.2)
  env x x' := x'.1 = x.1 ∧ other.env x.2 x'.2

/-! ## how their states correspond -/

/-- What else there is: the other calls, the files that are there from the beginning, and the
descriptors that are in use besides those of the threads. -/
structure Sharing (O : Sig) (ι π υ : Type) where
  other : System O ι υ
  there : π → Prop
  taken : Finset Nat
  descriptors : Nat

variable {W : Sharing O ι π υ}

/-- The bytes of the disk are the records. -/
structure Matching (W : Sharing O ι π υ) (s : SharedDisk ι π × υ) (x : Records size × υ) :
    Prop where
  bytes : ∀ path, s.1.disk.bytes path = pack (x.1 path)
  there : ∀ path, W.there path → (s.1.disk.content path).isSome
  accepts : s.1.disk.accepts = []
  descriptors : Descriptors W.taken W.descriptors s.1.disk.table s.1.holds
  other : s.2 = x.2

/-- The others leave a thread its descriptor. -/
structure Keeps (t : ι) (s s' : SharedDisk ι π × υ) : Prop where
  holds : s'.1.holds t = s.1.holds t
  entry : ∀ fd, s.1.holds t = some fd → s'.1.disk.table[fd]? = s.1.disk.table[fd]?

/-- The two machines. -/
def Sharing.files (W : Sharing O ι π υ) (size : π → Nat) :
    Coupling ((RecordSig size).sum O) ((PosixSig π).sum O) ι (Records size × υ)
      (SharedDisk ι π × υ) where
  high := recordSystem W.other
  low := fileSystem W.other
  rel := Matching W
  rely := Keeps
  rely_refl _ _ := ⟨rfl, fun _ _ => rfl⟩
  rely_trans h h' := ⟨h'.holds.trans h.holds, fun fd hfd =>
    (h'.entry fd (h.holds.trans hfd)).trans (h.entry fd hfd)⟩

/-- The thread has no file open. -/
def HasNone (t : ι) (s : SharedDisk ι π × υ) : Prop := s.1.holds t = none

/-- The thread has a file open. -/
structure Owns (t : ι) (fd : Nat) (f : OpenFile π) (s : SharedDisk ι π × υ) : Prop where
  holds : s.1.holds t = some fd
  entry : s.1.disk.table[fd]? = some (some f)

/-- In any company, the calls on files are these accesses to records. -/
abbrev Sharing.Does {α β : Type} (W : Sharing O ι π υ)
    (c₀ : Config ((RecordSig size).sum O) ι (Records size × υ)) (t : ι)
    (P : SharedDisk ι π × υ → Prop) (p : Prog (RecordSig size) α) (q : Prog (PosixSig π) β)
    (R : α → β → SharedDisk ι π × υ → Prop) : Prop :=
  (W.files size).Refines c₀ t P p.inl q.inl R

end Machines

/-! ## what a call does -/

section Steps

variable {ι π υ : Type} {O : Sig} {size : π → Nat} {W : Sharing O ι π υ} {t : ι} {fd : Nat}
  {f f' : OpenFile π} {s s' : SharedDisk ι π × υ} {x : Records size × υ}

/-- A read that gives a record gives its bytes. -/
theorem val_of_whole {size : Nat} {bs : List UInt8} {y : CharArray size}
    (h : whole size (some bs) = some y) : bs = y.val := by
  by_cases hlength : bs.length = size
  · simp only [whole, dif_pos hlength] at h
    exact congrArg Subtype.val (Option.some.inj h)
  · simp only [whole, dif_neg hlength] at h
    cases h

/-- A disk without one of its descriptors. -/
def Disk.without (d : Disk π) (fd : Nat) : Disk π := { d with table := d.table.set fd none }

/-- A descriptor that a thread owns is free without it. -/
theorem Owns.without (h : Owns t fd f s) : (s.1.disk.without fd).table[fd]? = some none :=
  List.getElem?_set_self (List.getElem?_eq_some_iff.mp h.entry).1

/-- The disk of a thread that has a file open. -/
theorem Owns.disk (h : Owns t fd f s) : s.1.disk = (s.1.disk.without fd).opened fd f := by
  obtain ⟨hlt, hentry⟩ := List.getElem?_eq_some_iff.mp h.entry
  rw [Disk.opened, Disk.without, List.set_set, ← hentry, List.set_getElem_self]

/-- A thread works on its file: it leaves the descriptors of the others, and the records are those
of the disk. -/
theorem Owns.works {d' : Disk π} {l : Records size} (ho : Owns t fd f s) (hm : Matching W s x)
    (hdisk : s'.1.disk = d'.opened fd f') (hholds : s'.1.holds = s.1.holds) (hother : s'.2 = s.2)
    (htable : d'.table = (s.1.disk.without fd).table)
    (hbytes : ∀ path, d'.bytes path = pack (l path))
    (hthere : ∀ path, (s.1.disk.content path).isSome → (d'.content path).isSome)
    (haccepts : d'.accepts = []) :
    (∀ u, u ≠ t → Keeps u s s') ∧ Matching W s' (l, x.2) ∧ Owns t fd f' s' := by
  have hset : s'.1.disk.table = s.1.disk.table.set fd (some f') := by
    rw [hdisk, Disk.opened, htable, Disk.without, List.set_set]
  have hlt : fd < s.1.disk.table.length := (List.getElem?_eq_some_iff.mp ho.entry).1
  refine ⟨fun u hu => ⟨by rw [hholds], fun fd' hfd' => ?_⟩, ⟨?_, ?_, ?_, ?_, ?_⟩, ?_, ?_⟩
  · have hne : fd ≠ fd' := fun heq => hu (hm.descriptors.apart u t fd' hfd' (heq ▸ ho.holds))
    rw [hset, List.getElem?_set_ne hne]
  · intro path
    rw [hdisk, Disk.opened_bytes, hbytes]
  · intro path hpath
    rw [hdisk, Disk.opened_content]
    exact hthere path (hm.there path hpath)
  · rw [hdisk, Disk.opened_accepts, haccepts]
  · rw [hset, hholds]
    exact hm.descriptors.set ho.holds
  · rw [hother, hm.other]
  · rw [hholds, ho.holds]
  · rw [hset, List.getElem?_set_self hlt]

/-- A thread closes its file. -/
theorem Owns.closes [DecidableEq ι] (ho : Owns t fd f s) (hm : Matching W s x)
    (hdisk : s'.1.disk = s.1.disk.without fd)
    (hholds : s'.1.holds = Function.update s.1.holds t none) (hother : s'.2 = s.2) :
    (∀ u, u ≠ t → Keeps u s s') ∧ Matching W s' x ∧ HasNone t s' := by
  refine ⟨fun u hu => ⟨by rw [hholds, Function.update_of_ne hu], fun fd' hfd' => ?_⟩,
    ⟨fun path' => ?_, fun path' hpath' => ?_, ?_, ?_, ?_⟩, ?_⟩
  · have hne : fd ≠ fd' := fun heq => hu (hm.descriptors.apart u t fd' hfd' (heq ▸ ho.holds))
    rw [hdisk, Disk.without, List.getElem?_set_ne hne]
  · rw [hdisk]
    exact hm.bytes path'
  · rw [hdisk]
    exact hm.there path' hpath'
  · rw [hdisk]
    exact hm.accepts
  · rw [hdisk, hholds]
    exact hm.descriptors.close ho.holds
  · rw [hother, hm.other]
  · rw [HasNone, hholds, Function.update_self]

variable [DecidableEq π]

/-- A file that is there, or is created, is opened. -/
theorem Disk.exec_open_put {d : Disk π} {path : π} {flags : OpenFlags} (h : d.freeFd = some fd)
    (hopens : (d.content path).isSome || flags.creat) (htrunc : flags.trunc = false) :
    exec (.open path flags) d =
      ((fd : Int), (d.put path (d.bytes path)).opened fd ⟨path, flags, 0⟩) := by
  simp only [exec, h, hopens, if_true, htrunc, Bool.false_eq_true, if_false]

/-- To write what is there. -/
theorem Disk.bytes_put (d : Disk π) (path : π) : (d.put path (d.bytes path)).bytes = d.bytes := by
  funext path'
  by_cases h : path' = path
  · rw [h, put_bytes_self]
  · rw [bytes, put_content_ne h, bytes]

/-- The files are the records, after one has been put as well. -/
theorem Disk.bytes_put_pack {d : Disk π} {l : Records size}
    (h : ∀ path, d.bytes path = pack (l path))
    {path : π} (l' : List (CharArray (size path))) (path' : π) :
    (d.put path (pack l')).bytes path' = pack (Function.update l path l' path') := by
  by_cases hpath : path' = path
  · subst hpath
    rw [put_bytes_self, Function.update_self]
  · rw [bytes, put_content_ne hpath, Function.update_of_ne hpath, ← h path', bytes]

/-- Files do not go away when others are written. -/
theorem Disk.isSome_content_put {d : Disk π} {path : π} {bs : List UInt8} {path' : π}
    (h : (d.content path').isSome) : ((d.put path bs).content path').isSome := by
  by_cases hpath : path' = path
  · rw [hpath, put_content_self]
    rfl
  · rwa [put_content_ne hpath]

variable [DecidableEq ι]

/-- A thread that has no file open opens one. -/
theorem HasNone.opens {path : π} (hn : HasNone t s) (hm : Matching W s x)
    (hfree : s.1.disk.table[fd]? = some none)
    (hdisk : s'.1.disk = (s.1.disk.put path (s.1.disk.bytes path)).opened fd f)
    (hholds : s'.1.holds = Function.update s.1.holds t (some fd)) (hother : s'.2 = s.2) :
    (∀ u, u ≠ t → Keeps u s s') ∧ Matching W s' x ∧ Owns t fd f s' := by
  have hset : s'.1.disk.table = s.1.disk.table.set fd (some f) := by rw [hdisk]; rfl
  have hlt : fd < s.1.disk.table.length := (List.getElem?_eq_some_iff.mp hfree).1
  refine ⟨fun u hu => ⟨by rw [hholds, Function.update_of_ne hu], fun fd' hfd' => ?_⟩,
    ⟨fun path' => ?_, fun path' hpath' => ?_, ?_, ?_, ?_⟩, ?_, ?_⟩
  · have hne : fd ≠ fd' := by
      rintro rfl
      obtain ⟨f', hf'⟩ := hm.descriptors.inUse u fd hfd'
      rw [hfree] at hf'
      cases hf'
    rw [hset, List.getElem?_set_ne hne]
  · rw [hdisk, Disk.opened_bytes, Disk.bytes_put, hm.bytes]
  · rw [hdisk, Disk.opened_content]
    exact Disk.isSome_content_put (hm.there path' hpath')
  · rw [hdisk, Disk.opened_accepts, Disk.put_accepts, hm.accepts]
  · rw [hset, hholds]
    exact hm.descriptors.open hn hfree
  · rw [hother, hm.other]
  · rw [hholds, Function.update_self]
  · rw [hset, List.getElem?_set_self hlt]

/-- A thread that has no descriptor has none while others move. -/
theorem stays_hasNone : (W.files size).Stays t (HasNone t) :=
  fun _ _ hkeeps h => hkeeps.holds.trans h

/-- One that has keeps it. -/
theorem stays_owns : (W.files size).Stays t (Owns t fd f) :=
  fun _ _ hkeeps h => ⟨hkeeps.holds.trans h.holds, (hkeeps.entry fd h.holds).trans h.entry⟩

/-- A kernel call changes the disk and who holds what. -/
theorem fileSystem_step {c : FileCall π} {r : c.Res} :
    (W.files size).low.step t (.inl c) s = some (r, s') ↔
      Disk.exec c s.1.disk = (r, s'.1.disk) ∧ s'.1.holds = heldAfter t s.1.holds c r ∧
        s'.2 = s.2 := by
  obtain ⟨⟨disk, holds⟩, rest⟩ := s'
  constructor
  · intro h
    cases h
    exact ⟨rfl, rfl, rfl⟩
  · rintro ⟨hexec, rfl, rfl⟩
    have hanswer : (Disk.exec c s.1.disk).1 = r := congrArg Prod.fst hexec
    have hdisk : (Disk.exec c s.1.disk).2 = disk := congrArg Prod.snd hexec
    subst hanswer hdisk
    rfl

end Steps

/-! ## the rules -/

namespace Sharing

variable {ι π υ : Type} [DecidableEq ι] [DecidableEq π] {O : Sig} {size : π → Nat}
  {W : Sharing O ι π υ} {c₀ : Config ((RecordSig size).sum O) ι (Records size × υ)} {t : ι}
  {fd : Nat} {f : OpenFile π} {path : π} {flags : OpenFlags}

section Compose

variable {α β γ δ : Type} {P : SharedDisk ι π × υ → Prop} {p : Prog (RecordSig size) α}
  {q : Prog (PosixSig π) β} {R : α → β → SharedDisk ι π × υ → Prop}
  {R' : γ → δ → SharedDisk ι π × υ → Prop}

/-- One part after another. -/
theorem does_bind (h : W.Does c₀ t P p q R) {f : α → Prog (RecordSig size) γ}
    {g : β → Prog (PosixSig π) δ} (hf : ∀ a b, W.Does c₀ t (R a b) (f a) (g b) R') :
    W.Does c₀ t P (p >>= f) (q >>= g) R' := by
  have hboth := Coupling.Refines.bind h hf
  rwa [← Prog.inl_bind, ← Prog.inl_bind] at hboth

/-- A call that is no access comes first. -/
theorem does_before {q : Prog (PosixSig π) β} {R : Unit → β → SharedDisk ι π × υ → Prop}
    (h : W.Does c₀ t P (.pure ()) q R) {p : Prog (RecordSig size) γ}
    {g : β → Prog (PosixSig π) δ} (hg : ∀ b, W.Does c₀ t (R () b) p (g b) R') :
    W.Does c₀ t P p (q >>= g) R' :=
  does_bind h (f := fun _ => p) fun _ b => hg b

/-- A program that is through matches one that is. -/
theorem does_pure {a : γ} {b : δ} (h : ∀ s, P s → R' a b s) :
    W.Does c₀ t P (.pure a) (.pure b) R' := Coupling.Refines.pure h

end Compose

/-- To move the offset is no access. -/
theorem does_lseek (offset : Nat) :
    W.Does c₀ t (Owns t fd f) (.pure ()) (lseek fd offset .set)
      fun _ r s => r = (offset : Int) ∧ Owns t fd { f with offset := offset } s := by
  refine Coupling.Refines.stutter (C := W.files size) (o := Sum.inl (.lseek fd offset .set))
    stays_owns ?_
  intro s x r s' hm ho hs
  obtain ⟨hexec, hholds, hother⟩ := fileSystem_step.mp hs
  rw [ho.disk, Disk.exec_lseek_set ho.without] at hexec
  obtain ⟨rfl, hdisk⟩ := Prod.mk.inj hexec
  obtain ⟨hkeeps, hm', ho'⟩ := ho.works hm hdisk.symm hholds hother rfl hm.bytes
    (fun _ => id) hm.accepts
  exact ⟨hkeeps, hm', rfl, ho'⟩

/-- Closing is no step of the records. -/
theorem does_close : W.Does c₀ t (Owns t fd f) (.pure ()) (closeFile fd)
    fun _ _ s => HasNone t s := by
  refine Coupling.Refines.stutter (C := W.files size) (o := Sum.inl (.close fd)) stays_owns ?_
  intro s x r s' hm ho hs
  obtain ⟨hexec, hholds, hother⟩ := fileSystem_step.mp hs
  rw [ho.disk, Disk.exec_close ho.without] at hexec
  obtain ⟨rfl, hdisk⟩ := Prod.mk.inj hexec
  exact ho.closes hm hdisk.symm hholds hother

section Opening

variable [Fintype ι] (hroom : W.taken.card + Fintype.card ι ≤ W.descriptors)

include hroom

/-- To open a file is no access. -/
theorem does_open (htrunc : flags.trunc = false) (hopens : W.there path ∨ flags.creat = true) :
    W.Does c₀ t (HasNone t) (.pure ()) (openFile path flags)
      fun _ r s => ∃ fd : Nat, r = (fd : Int) ∧ Owns t fd ⟨path, flags, 0⟩ s := by
  refine Coupling.Refines.stutter (C := W.files size) (o := Sum.inl (.open path flags))
    stays_hasNone ?_
  intro s x r s' hm hn hs
  obtain ⟨hexec, hholds, hother⟩ := fileSystem_step.mp hs
  obtain ⟨fd, hfd⟩ := hm.descriptors.free hroom hn
  have hput : (s.1.disk.content path).isSome || flags.creat := by
    rcases hopens with hthere | hcreat
    · rw [hm.there path hthere, Bool.true_or]
    · rw [hcreat, Bool.or_true]
  rw [Disk.exec_open_put hfd hput htrunc] at hexec
  obtain ⟨rfl, hdisk⟩ := Prod.mk.inj hexec
  have hnonneg : ¬ ((fd : Int) < 0) := by omega
  simp only [heldAfter, if_neg hnonneg, Int.toNat_natCast] at hholds
  obtain ⟨hkeeps, hm', ho⟩ := hn.opens hm (Disk.freeFd_spec hfd) hdisk.symm hholds hother
  exact ⟨hkeeps, hm', fd, rfl, ho⟩

/-- A file that is not there has no records: if it cannot be opened, the access is made then. -/
theorem does_openMaybe {α β : Type} (hsize : ∀ path, 0 < size path)
    {o : RecordCall size} {k : o.Res → Prog (RecordSig size) α} {g : Int → Prog (PosixSig π) β}
    {R : α → β → SharedDisk ι π × υ → Prop} (htrunc : flags.trunc = false)
    (hopened : ∀ fd : Nat, W.Does c₀ t (Owns t fd ⟨path, flags, 0⟩) (.call o k) (g fd) R)
    (hmissing : ∀ l : Records size, l path = [] → (RecordCall.exec o l).2 = l ∧
      W.Does c₀ t (HasNone t) (k (RecordCall.exec o l).1) (g (-1)) R) :
    W.Does c₀ t (HasNone t) (.call o k) (openFile path flags >>= g) R := by
  refine Coupling.Refines.step (C := W.files size) (o := Sum.inl (.open path flags))
    stays_hasNone ?_
  intro s x r s' hm hn hs
  obtain ⟨hexec, hholds, hother⟩ := fileSystem_step.mp hs
  obtain ⟨fd, hfd⟩ := hm.descriptors.free hroom hn
  cases hput : (s.1.disk.content path).isSome || flags.creat with
  | true =>
      rw [Disk.exec_open_put hfd hput htrunc] at hexec
      obtain ⟨rfl, hdisk⟩ := Prod.mk.inj hexec
      have hnonneg : ¬ ((fd : Int) < 0) := by omega
      simp only [heldAfter, if_neg hnonneg, Int.toNat_natCast] at hholds
      obtain ⟨hkeeps, hm', ho⟩ := hn.opens hm (Disk.freeFd_spec hfd) hdisk.symm hholds hother
      exact ⟨hkeeps, .inl ⟨hm', _, ho, hopened fd⟩⟩
  | false =>
      obtain ⟨hcontent, hcreat⟩ := Bool.or_eq_false_iff.mp hput
      have hnone : s.1.disk.content path = none :=
        Option.isNone_iff_eq_none.mp (Option.isSome_eq_false_iff.mp hcontent)
      rw [Disk.exec_open_missing hnone hcreat] at hexec
      obtain ⟨rfl, hdisk⟩ := Prod.mk.inj hexec
      have hsame : s' = s := by
        obtain ⟨⟨disk, holds⟩, rest⟩ := s'
        obtain rfl : s.1.disk = disk := hdisk
        obtain rfl : holds = s.1.holds := hholds
        obtain rfl : rest = s.2 := hother
        rfl
      have hempty : x.1 path = [] := by
        have hbytes := hm.bytes path
        rw [Disk.bytes, hnone, Option.getD_none] at hbytes
        exact pack_inj (hsize path) hbytes.symm
      obtain ⟨hl, hrest⟩ := hmissing x.1 hempty
      subst hsame
      exact ⟨fun u _ => (W.files size).rely_refl u s', .inr ⟨_, _, _, x, rfl,
        congrArg (fun l => some ((RecordCall.exec o x.1).1, l, x.2)) hl, hm, _, hn, hrest⟩⟩

end Opening

/-- **Read**: the record at the offset, if there is one. -/
theorem does_read (hsize : ∀ path, 0 < size path) (hread : flags.read = true) (i : Nat) :
    W.Does c₀ t (Owns t fd ⟨path, flags, i * size path⟩) (.call (.readAt path i) .pure)
      (readFile fd (size path)) fun a r s => whole (size path) r = a ∧
        (a.isSome → Owns t fd ⟨path, flags, (i + 1) * size path⟩ s) ∧
        ∃ offset, Owns t fd ⟨path, flags, offset⟩ s := by
  refine Coupling.Refines.commit (C := W.files size) (o := Sum.inl (.read fd (size path)))
    (m := Sum.inl (.readAt path i)) stays_owns ?_
  intro s x r s' hm ho hs
  obtain ⟨hexec, hholds, hother⟩ := fileSystem_step.mp hs
  rw [ho.disk, Disk.exec_read ho.without hread] at hexec
  obtain ⟨rfl, hdisk⟩ := Prod.mk.inj hexec
  obtain ⟨hkeeps, hm', ho'⟩ := ho.works hm hdisk.symm hholds hother rfl hm.bytes
    (fun _ => id) hm.accepts
  have hbytes : (s.1.disk.without fd).bytes path = pack (x.1 path) := hm.bytes path
  have hwhole := whole_take_drop (x.1 path) (show ([] : List UInt8).length < size path from
    hsize path) i
  rw [List.append_nil] at hwhole
  refine ⟨hkeeps, (x.1 path)[i]?, x, rfl, hm', ?_, fun hsome => ?_, _, ho'⟩
  · rw [hbytes, hwhole]
  · obtain ⟨y, hy⟩ := Option.isSome_iff_exists.mp hsome
    have hgot : ((pack (x.1 path)).drop (i * size path)).take (size path) = y.val :=
      val_of_whole (hwhole.trans hy)
    rw [hbytes, hgot, y.length_val, ← Nat.succ_mul] at ho'
    exact ho'

/-- **Measure**: how many records there are. -/
theorem does_measure : W.Does c₀ t (Owns t fd f) (.call (.count f.path) .pure) (lseek fd 0 .end)
    fun a r s => r = ((a * size f.path : Nat) : Int) ∧
      ∃ offset, Owns t fd { f with offset := offset } s := by
  refine Coupling.Refines.commit (C := W.files size) (o := Sum.inl (.lseek fd 0 .end))
    (m := Sum.inl (.count f.path)) stays_owns ?_
  intro s x r s' hm ho hs
  obtain ⟨hexec, hholds, hother⟩ := fileSystem_step.mp hs
  rw [ho.disk, Disk.exec_lseek_end ho.without] at hexec
  obtain ⟨rfl, hdisk⟩ := Prod.mk.inj hexec
  obtain ⟨hkeeps, hm', ho'⟩ := ho.works hm hdisk.symm hholds hother rfl hm.bytes
    (fun _ => id) hm.accepts
  have hbytes : (s.1.disk.without fd).bytes f.path = pack (x.1 f.path) := hm.bytes f.path
  exact ⟨hkeeps, (x.1 f.path).length, x, rfl, hm', by rw [hbytes, length_pack], _, ho'⟩

/-- **Write**: the record at the offset. -/
theorem does_write (hflags : flags.write = true ∧ flags.append = false) (i : Nat)
    (y : CharArray (size path)) :
    W.Does c₀ t (Owns t fd ⟨path, flags, i * size path⟩) (.call (.writeAt path i y) .pure)
      (writeFile fd y.val) fun _ r s => r = (size path : Int) ∧
        Owns t fd ⟨path, flags, (i + 1) * size path⟩ s := by
  refine Coupling.Refines.commit (C := W.files size) (o := Sum.inl (.write fd y.val))
    (m := Sum.inl (.writeAt path i y)) stays_owns ?_
  intro s x r s' hm ho hs
  obtain ⟨hexec, hholds, hother⟩ := fileSystem_step.mp hs
  have hbytes : (s.1.disk.without fd).bytes path = pack (x.1 path) := hm.bytes path
  rw [ho.disk, Disk.exec_write_all ho.without hflags.1 hm.accepts] at hexec
  simp only [hflags.2, Bool.false_eq_true, if_false, hbytes, splice_pack, y.length_val] at hexec
  obtain ⟨rfl, hdisk⟩ := Prod.mk.inj hexec
  obtain ⟨hkeeps, hm', ho'⟩ := ho.works hm hdisk.symm hholds hother rfl
    (Disk.bytes_put_pack hm.bytes _) (fun _ => Disk.isSome_content_put) hm.accepts
  rw [← Nat.succ_mul] at ho'
  exact ⟨hkeeps, (), _, rfl, hm', rfl, ho'⟩

/-- **Append**: the record at the end. -/
theorem does_append (hflags : flags.write = true ∧ flags.append = true)
    (y : CharArray (size path)) {offset : Nat} :
    W.Does c₀ t (Owns t fd ⟨path, flags, offset⟩) (.call (.append path y) .pure)
      (writeFile fd y.val) fun _ r s => r = (size path : Int) ∧
        ∃ offset, Owns t fd ⟨path, flags, offset⟩ s := by
  refine Coupling.Refines.commit (C := W.files size) (o := Sum.inl (.write fd y.val))
    (m := Sum.inl (.append path y)) stays_owns ?_
  intro s x r s' hm ho hs
  obtain ⟨hexec, hholds, hother⟩ := fileSystem_step.mp hs
  have hbytes : (s.1.disk.without fd).bytes path = pack (x.1 path) := hm.bytes path
  rw [ho.disk, Disk.exec_write_all ho.without hflags.1 hm.accepts] at hexec
  simp only [hflags.2, if_true, splice_length, hbytes, y.length_val] at hexec
  obtain ⟨rfl, hdisk⟩ := Prod.mk.inj hexec
  have hpack : pack (x.1 path) ++ y.val = pack (x.1 path ++ [y]) := by simp
  rw [hpack] at hdisk
  obtain ⟨hkeeps, hm', ho'⟩ := ho.works hm hdisk.symm hholds hother rfl
    (Disk.bytes_put_pack hm.bytes _) (fun _ => Disk.isSome_content_put) hm.accepts
  exact ⟨hkeeps, (), _, rfl, hm', rfl, _, ho'⟩

/-- The other calls are the same in both machines. -/
theorem refines_other (o : O.Op) : (W.files size).Refines c₀ t (HasNone t)
    (.call (.inr o) .pure) (.call (.inr o) .pure) fun a b s => a = b ∧ HasNone t s := by
  refine Coupling.Refines.commit (C := W.files size) (o := Sum.inr o) (m := Sum.inr o)
    stays_hasNone ?_
  intro s x r s' hm hn hs
  obtain ⟨⟨a, y⟩, hstep, hs'⟩ := Option.map_eq_some_iff.mp hs
  obtain ⟨rfl, rfl⟩ := Prod.mk.inj hs'
  refine ⟨fun u _ => ⟨rfl, fun _ _ => rfl⟩, a, (x.1, y), ?_,
    ⟨hm.bytes, hm.there, hm.accepts, hm.descriptors, rfl⟩, rfl, hn⟩
  exact Option.map_eq_some_iff.mpr ⟨(a, y), hm.other ▸ hstep, rfl⟩

end Sharing

/-! ## loops -/

/-- The loop over the records from `i` on, one access after another. -/
def recordLoop {π σ : Type} {size : π → Nat} (path : π) (guard : σ → Bool)
    (body : Nat → σ → CharArray (size path) → Prog (RecordSig size) (Bool × σ)) :
    Nat → Nat → σ → Prog (RecordSig size) (Option σ)
  | 0, _, _ => pure none
  | fuel + 1, i, s =>
      if guard s then
        .call (.readAt path i) fun (got : Option (CharArray (size path))) =>
          match got with
          | none => pure (some s)
          | some x => do
              let (more, s) ← body i s x
              if more then recordLoop path guard body fuel (i + 1) s else pure (some s)
      else pure (some s)

/-- A loop that only reads. -/
def recordScan {π σ : Type} {size : π → Nat} (path : π) (guard : σ → Bool)
    (next : σ → CharArray (size path) → Bool × σ) (fuel : Nat) (init : σ) :
    Prog (RecordSig size) (Option σ) :=
  recordLoop path guard (fun _ s x => .pure (next s x)) fuel 0 init

/-- The body of a pass that writes records back. -/
def writeBackAt {π : Type} {size : π → Nat} (path : π)
    (change : CharArray (size path) → Option (CharArray (size path))) (i offset : Nat)
    (x : CharArray (size path)) : Prog (RecordSig size) (Bool × Nat) :=
  match change x with
  | some y => .call (.writeAt path i y) fun _ => .pure (true, offset + size path)
  | none => .pure (true, offset + size path)

/-- A pass that writes back the records that it changes. -/
def recordPass {π : Type} {size : π → Nat} (path : π)
    (change : CharArray (size path) → Option (CharArray (size path))) (fuel : Nat) :
    Prog (RecordSig size) (Option Nat) :=
  recordLoop path (fun _ => true) (writeBackAt path change) fuel 0 0

namespace Sharing

section Loop

variable {ι π υ σ : Type} [DecidableEq ι] [DecidableEq π] {O : Sig} {size : π → Nat}
  {W : Sharing O ι π υ} {c₀ : Config ((RecordSig size).sum O) ι (Records size × υ)} {t : ι}
  {fd : Nat} {path : π} {flags : OpenFlags}
  {body : Nat → σ → CharArray (size path) → Prog (RecordSig size) (Bool × σ)}
  {body' : σ → CharArray (size path) → Prog (PosixSig π) (Bool × σ)} {ok : Nat → σ → Prop}

/-- **A loop** over a file makes an access for every record that it reads; its body makes those
that it makes itself, and leaves the offset behind the record. -/
theorem does_readLoop (guard : σ → Bool) (hsize : ∀ path, 0 < size path)
    (hread : flags.read = true)
    (hbody : ∀ i s x, ok i s →
      W.Does c₀ t (Owns t fd ⟨path, flags, (i + 1) * size path⟩) (body i s x) (body' s x)
        fun a b st => (a = b ∧ ok (i + 1) b.2) ∧
          Owns t fd ⟨path, flags, (i + 1) * size path⟩ st)
    (fuel i : Nat) (s : σ) (hok : ok i s) :
    W.Does c₀ t (Owns t fd ⟨path, flags, i * size path⟩) (recordLoop path guard body fuel i s)
      (readLoop fd guard body' fuel s)
      fun a b st => a = b ∧ ∃ offset, Owns t fd ⟨path, flags, offset⟩ st := by
  induction fuel generalizing i s with
  | zero => exact does_pure fun _ ho => ⟨rfl, _, ho⟩
  | succ fuel ih =>
      rw [recordLoop, readLoop]
      by_cases hg : guard s = true
      · rw [if_pos hg, if_pos hg]
        refine does_bind (does_read hsize hread i) fun got r => .assume fun hgot => ?_
        subst hgot
        cases whole (size path) r with
        | none => exact does_pure fun _ h => ⟨rfl, h.2⟩
        | some x =>
            refine .conseq ?_ (fun _ h => h.1 rfl) fun _ _ _ => id
            refine does_bind (hbody i s x hok) fun a b => .assume fun hab => ?_
            obtain ⟨rfl, hok'⟩ := hab
            obtain ⟨more, s'⟩ := a
            cases more with
            | true => exact ih (i + 1) s' hok'
            | false => exact does_pure fun _ ho => ⟨rfl, _, ho⟩
      · rw [if_neg hg, if_neg hg]
        exact does_pure fun _ ho => ⟨rfl, _, ho⟩

end Loop

end Sharing

end OnlineAuction.Posix
