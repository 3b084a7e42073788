import ChunkGuard.Proofs.Bytes
import ChunkGuard.Proofs.Ends
import ChunkGuard.Proofs.Paths
import ChunkGuard.Storage

/-!
# A file is a vector of bytes

A file that is opened, read, written, cut off, closed and opened again answers as a vector of bytes
in memory does (`ByteVector.perform`): a write past the end fills the gap with zeros, a resize cuts off
or adds zeros, and a read fails exactly if it passes the end. So do the storages in memory. The file
keeps its size apart from its content and grows by writing one byte; that both come to the same is
`OpenFile.Shows`.
-/

namespace ChunkGuard

/-! ## Steps -/

/-- What can be done with the storage of a file. -/
inductive FileStep where
  | openFile (writable : Bool)
  | close
  | read (offset size : Nat)
  | write (offset : Nat) (src : Bytes)
  | resize (n : Nat)
  deriving DecidableEq, Repr

namespace FileStep

/-- Carries out a step on the file at a path. A read gives the bytes read. -/
def perform (path : String) : FileStep → EStateM FileError FileDesk (Option Bytes)
  | openFile writable => do
    FileDesk.openFile path writable
    return none
  | close => do
    FileDesk.close
    return none
  | read offset size => return some (← FileDesk.onFile (OpenFile.read offset size))
  | write offset src => do
    FileDesk.onFile (OpenFile.write offset src)
    return none
  | resize n => do
    FileDesk.onFile (OpenFile.resize n)
    return none

/-- The answers to steps in a row, going on after failures, and the state that they leave. -/
def run {σ : Type} (m : FileStep → EStateM FileError σ (Option Bytes)) :
    List FileStep → σ → List (Except FileError (Option Bytes)) × σ
  | [], s => ([], s)
  | step :: rest, s =>
    match m step s with
    | .ok a s => (.ok a :: (run m rest s).1, (run m rest s).2)
    | .error e s => (.error e :: (run m rest s).1, (run m rest s).2)

end FileStep

/-! ## The vector -/

/-- A vector of bytes in place of a file: the bytes, if there are any to open, and whether it is
open and may be written. -/
structure ByteVector where
  content : Option Bytes
  mode : Option Bool := none
  deriving DecidableEq, Repr

namespace ByteVector

def bytes (v : ByteVector) : Bytes := v.content.getD []

/-- Carries out a step on the vector, which has a name in messages. -/
def perform (name : String) : FileStep → EStateM FileError ByteVector (Option Bytes)
  | .openFile writable => fun v =>
    if v.content.isNone ∧ !writable then
      .error (.stream (.unopened name)) { v with mode := none }
    else .ok none { content := some v.bytes, mode := some writable }
  | .close => fun v => .ok none { v with mode := none }
  | .read offset size => fun v =>
    if v.bytes.length < offset + size then .error (.stream (.pastEnd (.file name))) v
    else .ok (some (Bytes.slice offset size v.bytes)) v
  | .write offset src => fun v =>
    .ok none { v with content := some (Bytes.write offset src v.bytes) }
  | .resize n => fun v => .ok none { v with content := some (Bytes.resize n v.bytes) }

/-- The step is one that the open storage has, which is not written to if it was opened for reading.
What is written is at positions up to a limit, and it is something unless it is inside of the vector. -/
def Admits (limit : Nat) (v : ByteVector) : FileStep → Prop
  | .openFile _ => True
  | .close => True
  | .read _ _ => v.mode.isSome
  | .write offset src =>
    v.mode = some true ∧ offset ≤ limit ∧ offset + src.length ≤ limit + 1 ∧
      (src ≠ [] ∨ offset ≤ v.bytes.length)
  | .resize n => v.mode = some true ∧ n ≤ limit + 1

instance (limit : Nat) (v : ByteVector) : ∀ step, Decidable (v.Admits limit step)
  | .openFile _ => .isTrue trivial
  | .close => .isTrue trivial
  | .read _ _ => inferInstanceAs (Decidable (v.mode.isSome = true))
  | .write offset src =>
    inferInstanceAs (Decidable (v.mode = some true ∧ offset ≤ limit ∧
      offset + src.length ≤ limit + 1 ∧ (src ≠ [] ∨ offset ≤ v.bytes.length)))
  | .resize n => inferInstanceAs (Decidable (v.mode = some true ∧ n ≤ limit + 1))

/-- The vector after a step. -/
def after (name : String) (v : ByteVector) (step : FileStep) : ByteVector :=
  match perform name step v with
  | .ok _ v => v
  | .error _ v => v

/-- Every step is admitted where it is carried out. -/
def AdmitsAll (limit : Nat) (name : String) : ByteVector → List FileStep → Prop
  | _, [] => True
  | v, step :: rest => v.Admits limit step ∧ AdmitsAll limit name (v.after name step) rest

instance decidableAdmitsAll (limit : Nat) (name : String) :
    ∀ (v : ByteVector) (steps : List FileStep), Decidable (v.AdmitsAll limit name steps)
  | _, [] => .isTrue trivial
  | v, step :: rest =>
    have := decidableAdmitsAll limit name (v.after name step) rest
    inferInstanceAs (Decidable (v.Admits limit step ∧ AdmitsAll limit name (v.after name step) rest))

end ByteVector

/-! ## Open files -/

namespace Bytes

/-- Writing one zero as the last byte makes a string longer. -/
theorem write_last_zero {n : Nat} {b : Bytes} (h : b.length < n) :
    write (n - 1) [0] b = resize n b := by
  apply List.ext_getElem?
  intro i
  rw [getElem?_write, getElem?_resize, List.length_singleton, Nat.sub_add_cancel (by omega)]
  by_cases hbefore : i < n - 1
  · rw [if_pos hbefore, if_pos (by omega)]
  rw [if_neg hbefore]
  by_cases hlast : i < n
  · have hindex : i - (n - 1) = 0 := by omega
    have hout : b[i]? = none := List.getElem?_eq_none (by omega)
    rw [if_pos hlast, if_pos hlast, hindex, List.getD_eq_getElem?_getD, hout]
    rfl
  · rw [if_neg hlast, if_neg hlast, List.getElem?_eq_none (by omega)]

theorem resize_self (b : Bytes) : resize b.length b = b := by
  rw [resize, Nat.sub_self, List.take_length]
  exact List.append_nil b

end Bytes

namespace OpenFile

/-- The open file works, it is no directory, it holds the bytes, and its size is their number. -/
structure Shows (name : String) (place : Place) (writable : Bool) (limit : Nat) (bytes : Bytes)
    (f : OpenFile) : Prop where
  path_eq : f.path = name
  place_eq : f.place = place
  bytes_eq : f.bytes = bytes
  size_eq : f.size = bytes.length
  writable_eq : f.writable = writable
  limit_eq : f.offsetLimit = limit
  sound : f.health = .sound
  plain : f.isDirectory = false

variable {name : String} {place : Place} {writable : Bool} {limit : Nat} {bytes : Bytes}
  {f : OpenFile}

/-- A read inside of the file gives the bytes there, and one past the end fails. Neither changes the
file. -/
theorem Shows.ends_read (h : f.Shows name place writable limit bytes) (offset size : Nat) :
    Ends (read offset size) f
      (fun a g => g = f ∧ ¬ bytes.length < offset + size ∧ a = Bytes.slice offset size bytes)
      (fun e g => g = f ∧ bytes.length < offset + size ∧
        e = .stream (.pastEnd (.file name))) := by
  have hcontent : Content.size f.content = bytes.length := by
    rw [← Content.length_toBytes, ← h.bytes_eq, OpenFile.bytes]
  have hsize := h.size_eq
  by_cases hpast : f.size < offset ∨ f.size - offset < size
  · refine .of_error (if_pos hpast) ⟨rfl, by omega, ?_⟩
    rw [h.path_eq]
  · have hinside : ¬ (size ≠ 0 ∧ Content.size f.content < offset + size) := by omega
    have hsound : ¬ f.health ≠ .sound := fun hfailed => hfailed h.sound
    have hplain : ¬ (size ≠ 0 ∧ f.isDirectory) := by
      rw [h.plain]
      exact fun hdirectory => Bool.false_ne_true hdirectory.2
    have hread : read offset size f = .ok (Content.slice offset size f.content) f := by
      rw [read, if_neg hpast, if_neg hsound, if_neg hplain, if_neg hinside]
    refine .of_ok hread ⟨rfl, by omega, ?_⟩
    rw [Content.slice_eq, ← h.bytes_eq, OpenFile.bytes]

/-- A write lays bytes over those of the file. Without any it has to be inside. -/
theorem Shows.ends_write (h : f.Shows name place true limit bytes) {offset : Nat} {src : Bytes}
    (hlimit : offset ≤ limit) (hsrc : src ≠ [] ∨ offset ≤ bytes.length) :
    Ends (write offset src) f
      (fun _ g => g.Shows name place true limit (Bytes.write offset src bytes))
      (fun _ _ => False) := by
  have hwritable : ¬ (!f.writable) = true := by
    rw [h.writable_eq]
    exact Bool.false_ne_true
  have hsound : ¬ f.health ≠ .sound := fun hfailed => hfailed h.sound
  have hoffset : ¬ f.offsetLimit < offset := by
    rw [h.limit_eq]
    exact Nat.not_lt_of_le hlimit
  rw [Ends, write, if_neg hwritable, if_neg hsound, if_neg hoffset]
  refine ⟨h.path_eq, h.place_eq, ?_, ?_, h.writable_eq, h.limit_eq, h.sound, h.plain⟩
  · show Content.toBytes (if src.isEmpty then f.content else Content.write offset src f.content) = _
    have hbytes : Content.toBytes f.content = bytes := h.bytes_eq
    by_cases hempty : src.isEmpty
    · obtain rfl := List.isEmpty_iff.mp hempty
      rw [if_pos hempty, hbytes, Bytes.write_nil]
      exact hsrc.resolve_left fun hne => hne rfl
    · rw [if_neg hempty, Content.toBytes_write, hbytes]
  · show max f.size (offset + src.length) = _
    rw [h.size_eq, Bytes.length_write, Nat.max_comm]

/-- A resize cuts the file off or adds zeros. -/
theorem Shows.ends_resize (h : f.Shows name place true limit bytes)
    (hlength : bytes.length ≤ limit + 1) {n : Nat} (hn : n ≤ limit + 1) :
    Ends (resize n) f (fun _ g => g.Shows name place true limit (Bytes.resize n bytes))
      (fun _ _ => False) := by
  have hwritable : ¬ (!f.writable) = true := by
    rw [h.writable_eq]
    exact Bool.false_ne_true
  have hsize := h.size_eq
  by_cases hgrow : f.size < n
  · have hresize : resize n f = write (n - 1) [0] f := by
      rw [resize, if_neg hwritable, if_pos hgrow]
    have hwrite := h.ends_write (by omega : n - 1 ≤ limit) (.inl (List.cons_ne_nil 0 []))
    rw [Bytes.write_last_zero (by omega)] at hwrite
    rw [Ends, hresize]
    exact hwrite
  by_cases hsame : f.size = n
  · rw [Ends, resize, if_neg hwritable, if_neg hgrow, if_pos hsame, ← hsame, hsize,
      Bytes.resize_self]
    exact h
  · have hclosed : ¬ f.health = .closed := by
      rw [h.sound]
      exact nofun
    have hlimit : ¬ f.offsetLimit < n := by
      rw [h.limit_eq]
      omega
    rw [Ends, resize, if_neg hwritable, if_neg hgrow, if_neg hsame, if_neg hclosed, if_neg hlimit]
    refine ⟨h.path_eq, h.place_eq, ?_, ?_, h.writable_eq, h.limit_eq, rfl, h.plain⟩
    · show Content.toBytes (Content.resize n f.content) = _
      rw [Content.toBytes_resize, ← h.bytes_eq, OpenFile.bytes]
    · exact (Bytes.length_resize n bytes).symm

/-- What a file that may be written holds is in the tree once it is saved. -/
theorem Shows.save_eq (h : f.Shows name place true limit bytes) (t : FileTree) :
    t.save f = t.put place (.file f.content) := by
  rw [FileTree.save, h.writable_eq, if_pos rfl, h.place_eq]

end OpenFile

/-! ## Opening -/

namespace FileTree

variable {t : FileTree} {path : String} {place : Place}

/-- A file that is there is opened with what it holds, for reading or for writing. -/
theorem openFile_of_some {bytes : Bytes} (h : t.HoldsAt path place (some bytes))
    (writable : Bool) :
    ∃ f, t.openFile path writable = .ok (f, t) ∧
      f.Shows (t.absolute path) place writable t.offsetLimit bytes := by
  obtain ⟨hresolve, hbytes⟩ := h
  obtain ⟨content, hnode, rfl⟩ := bytes?_eq_some.mp hbytes
  simp only [openFile, hresolve, hnode]
  exact ⟨_, rfl, rfl, rfl, rfl, (Content.length_toBytes content).symm, rfl, rfl, rfl, rfl⟩

/-- A missing file is made empty when it is opened for writing. -/
theorem openFile_of_none (h : t.HoldsAt path place none) :
    ∃ f, t.openFile path true = .ok (f, t.put place (.file [])) ∧
      f.Shows (t.absolute path) place true t.offsetLimit [] := by
  have hresolve : t.resolve path = .ok (.free place) := h
  simp only [openFile, hresolve]
  exact ⟨_, rfl, rfl, rfl, rfl, rfl, rfl, rfl, rfl, rfl⟩

/-- A missing file can't be opened for reading. -/
theorem openFile_error (h : t.HoldsAt path place none) :
    t.openFile path false = .error (.stream (.unopened (t.absolute path))) := by
  have hresolve : t.resolve path = .ok (.free place) := h
  simp only [openFile, hresolve]
  rfl

end FileTree

namespace FileDesk

/-- Work on the open file is carried out on it, and saved. -/
theorem ends_onFile {α : Type} {m : EStateM FileError OpenFile α} {d : FileDesk} {f : OpenFile}
    (hopened : d.opened = some f) {Q : α → FileDesk → Prop} {E : FileError → FileDesk → Prop} :
    Ends (onFile m) d Q E ↔
      Ends m f (fun a g => Q a { tree := d.tree.save g, opened := some g })
        (fun e g => E e { tree := d.tree.save g, opened := some g }) := by
  simp only [Ends, onFile, hopened]
  cases m f <;> rfl

end FileDesk

/-! ## Steps -/

/-- The desk with the file at a path answers as the vector does: the file holds its bytes, and it is
open exactly if the vector is, with the same size. -/
structure ByteVector.Mirrored (path : String) (place : Place) (limit : Nat) (name : String)
    (v : ByteVector) (d : FileDesk) : Prop where
  limit_eq : d.tree.offsetLimit = limit
  name_eq : d.tree.absolute path = name
  holds : d.tree.HoldsAt path place v.content
  length_le : v.bytes.length ≤ limit + 1
  closed : v.mode = none → d.opened = none
  opened : ∀ writable, v.mode = some writable → v.content.isSome ∧
    ∃ f, d.opened = some f ∧ f.Shows name place writable limit v.bytes

namespace ByteVector.Mirrored

variable {path : String} {place : Place} {limit : Nat} {name : String} {v : ByteVector}
  {d : FileDesk}

/-- An open vector holds bytes. -/
theorem content_eq (h : v.Mirrored path place limit name d) {writable : Bool}
    (hmode : v.mode = some writable) : v.content = some v.bytes := by
  obtain ⟨hsome, -⟩ := h.opened writable hmode
  rw [ByteVector.bytes]
  cases hcontent : v.content with
  | none =>
      rw [hcontent] at hsome
      exact absurd hsome Bool.false_ne_true
  | some bytes => rfl

/-- A file that was written is saved, and one that was only read stays. -/
theorem saved (h : v.Mirrored path place limit name d) {writable : Bool} {bytes : Bytes}
    {f : OpenFile} (hf : f.Shows name place writable limit bytes)
    (hbytes : writable = false → v.content = some bytes) (hlength : bytes.length ≤ limit + 1) :
    Mirrored path place limit name { content := some bytes, mode := some writable }
      { tree := d.tree.save f, opened := some f } := by
  have hopened : ∀ w, some writable = some w → (some bytes).isSome = true ∧
      ∃ g, some f = some g ∧ g.Shows name place w limit bytes := by
    rintro w ⟨⟩
    exact ⟨rfl, f, rfl, hf⟩
  cases writable with
  | false =>
      have hsave : d.tree.save f = d.tree := by
        rw [FileTree.save, hf.writable_eq]
        exact if_neg Bool.false_ne_true
      rw [hsave]
      exact ⟨h.limit_eq, h.name_eq, hbytes rfl ▸ h.holds, hlength, nofun, hopened⟩
  | true =>
      rw [hf.save_eq]
      refine ⟨h.limit_eq, h.name_eq, ?_, hlength, nofun, hopened⟩
      have hput := h.holds.put f.content
      rw [← OpenFile.bytes, hf.bytes_eq] at hput
      exact hput

/-- Opening the file succeeds exactly if the vector lets it. -/
theorem openFile (h : v.Mirrored path place limit name d) (writable : Bool) :
    Ends (FileStep.perform path (.openFile writable)) d
      (fun a d' => ∃ v', perform name (.openFile writable) v = .ok a v' ∧
        v'.Mirrored path place limit name d')
      (fun e d' => ∃ v', perform name (.openFile writable) v = .error e v' ∧
        v'.Mirrored path place limit name d') := by
  have hlength := h.length_le
  have hholds := h.holds
  simp only [FileStep.perform, FileDesk.openFile, FileDesk.close, ends_bind, ends_modify, ends_get]
  cases hcontent : v.content with
  | some bytes =>
      have hbytes : v.bytes = bytes := by rw [ByteVector.bytes, hcontent, Option.getD_some]
      rw [hcontent] at hholds
      obtain ⟨f, hopen, hf⟩ := FileTree.openFile_of_some hholds writable
      rw [h.limit_eq, h.name_eq, ← hbytes] at hf
      rw [hopen]
      have hthere : ¬ (v.content.isNone = true ∧ (!writable) = true) := by
        rw [hcontent]
        exact fun hmissing => Bool.false_ne_true hmissing.1
      refine ⟨{ content := some v.bytes, mode := some writable }, if_neg hthere, h.limit_eq,
        h.name_eq, ?_, hlength, fun hnone => absurd hnone (Option.some_ne_none _), ?_⟩
      · rw [hbytes]
        exact hholds
      · rintro w ⟨⟩
        exact ⟨rfl, f, rfl, hf⟩
  | none =>
      have hbytes : v.bytes = [] := by rw [ByteVector.bytes, hcontent, Option.getD_none]
      rw [hcontent] at hholds
      cases writable with
      | false =>
          rw [FileTree.openFile_error hholds, h.name_eq]
          have hmissing : v.content.isNone = true ∧ (!false) = true := by
            rw [hcontent]
            exact ⟨rfl, rfl⟩
          exact ⟨{ v with mode := none }, if_pos hmissing, h.limit_eq, h.name_eq, h.holds, hlength,
            fun _ => rfl, fun _ hsome => absurd hsome.symm (Option.some_ne_none _)⟩
      | true =>
          obtain ⟨f, hopen, hf⟩ := FileTree.openFile_of_none hholds
          rw [h.limit_eq, h.name_eq] at hf
          rw [hopen]
          have hmade : ¬ (v.content.isNone = true ∧ (!true) = true) := fun hmissing =>
            Bool.false_ne_true hmissing.2
          refine ⟨{ content := some v.bytes, mode := some true }, if_neg hmade, h.limit_eq,
            h.name_eq, ?_, hlength, fun hnone => absurd hnone (Option.some_ne_none _), ?_⟩
          · rw [hbytes]
            exact hholds.put []
          · rintro w ⟨⟩
            exact ⟨rfl, f, rfl, hbytes ▸ hf⟩

/-- Every admitted step has the answer that the vector gives. -/
theorem step (h : v.Mirrored path place limit name d) {step : FileStep}
    (hadmits : v.Admits limit step) :
    Ends (step.perform path) d
      (fun a d' => ∃ v', perform name step v = .ok a v' ∧ v'.Mirrored path place limit name d')
      (fun e d' => ∃ v', perform name step v = .error e v' ∧
        v'.Mirrored path place limit name d') := by
  cases step with
  | openFile writable => exact h.openFile writable
  | close =>
      exact ⟨_, rfl, h.limit_eq, h.name_eq, h.holds, h.length_le, fun _ => rfl,
        fun _ hsome => absurd hsome.symm (Option.some_ne_none _)⟩
  | read offset size =>
      obtain ⟨writable, hmode⟩ := Option.isSome_iff_exists.mp hadmits
      obtain ⟨-, f, hopened, hf⟩ := h.opened writable hmode
      have hcontent := h.content_eq hmode
      have hsame : ({ content := some v.bytes, mode := some writable } : ByteVector) = v := by
        rw [← hcontent, ← hmode]
      have hsaved := h.saved hf (fun _ => hcontent) h.length_le
      rw [hsame] at hsaved
      simp only [FileStep.perform, ends_bind, ends_pure, FileDesk.ends_onFile hopened]
      refine (hf.ends_read offset size).mono (fun a g hg => ?_) (fun e g hg => ?_)
      · obtain ⟨rfl, hinside, rfl⟩ := hg
        exact ⟨v, if_neg hinside, hsaved⟩
      · obtain ⟨rfl, hpast, rfl⟩ := hg
        exact ⟨v, if_pos hpast, hsaved⟩
  | write offset src =>
      obtain ⟨hmode, hlimit, hend, hsrc⟩ := hadmits
      obtain ⟨-, f, hopened, hf⟩ := h.opened true hmode
      simp only [FileStep.perform, ends_bind, ends_pure, FileDesk.ends_onFile hopened]
      refine (hf.ends_write hlimit hsrc).mono (fun a g hg => ⟨_, rfl, ?_⟩)
        (fun _ _ hfalse => hfalse.elim)
      have hlength := h.length_le
      have hsaved := h.saved hg (fun hfalse => absurd hfalse.symm Bool.false_ne_true)
        (by rw [Bytes.length_write]; omega)
      rw [← hmode] at hsaved
      exact hsaved
  | resize n =>
      obtain ⟨hmode, hn⟩ := hadmits
      obtain ⟨-, f, hopened, hf⟩ := h.opened true hmode
      simp only [FileStep.perform, ends_bind, ends_pure, FileDesk.ends_onFile hopened]
      refine (hf.ends_resize h.length_le hn).mono (fun a g hg => ⟨_, rfl, ?_⟩)
        (fun _ _ hfalse => hfalse.elim)
      have hsaved := h.saved hg (fun hfalse => absurd hfalse.symm Bool.false_ne_true)
        (by rw [Bytes.length_resize]; exact hn)
      rw [← hmode] at hsaved
      exact hsaved

/-- Admitted steps in a row have the answers that the vector gives. -/
theorem run (h : v.Mirrored path place limit name d) {steps : List FileStep}
    (hsteps : v.AdmitsAll limit name steps) :
    (FileStep.run (FileStep.perform path) steps d).1 =
        (FileStep.run (perform name) steps v).1 ∧
      (FileStep.run (perform name) steps v).2.Mirrored path place limit name
        (FileStep.run (FileStep.perform path) steps d).2 := by
  induction steps generalizing v d with
  | nil => exact ⟨rfl, h⟩
  | cons step rest ih =>
      obtain ⟨hadmits, hrest⟩ := hsteps
      have hstep := h.step hadmits
      rw [ByteVector.after] at hrest
      rw [FileStep.run, FileStep.run]
      cases hm : step.perform path d with
      | ok a d' =>
          obtain ⟨v', hv, h'⟩ := hstep.ok hm
          rw [hv] at hrest ⊢
          obtain ⟨hanswers, hleft⟩ := ih h' hrest
          exact ⟨congrArg _ hanswers, hleft⟩
      | error e d' =>
          obtain ⟨v', hv, h'⟩ := hstep.error hm
          rw [hv] at hrest ⊢
          obtain ⟨hanswers, hleft⟩ := ih h' hrest
          exact ⟨congrArg _ hanswers, hleft⟩

/-- The size of the open file is the number of bytes. -/
theorem size_eq (h : v.Mirrored path place limit name d) :
    d.opened.map OpenFile.size = v.mode.map fun _ => v.bytes.length := by
  cases hmode : v.mode with
  | none =>
      rw [h.closed hmode]
      rfl
  | some writable =>
      obtain ⟨-, f, hopened, hf⟩ := h.opened writable hmode
      rw [hopened]
      exact congrArg some hf.size_eq

theorem of_holds {t : FileTree} {content : Option Bytes} (h : t.HoldsAt path place content)
    (hlength : (content.getD []).length ≤ t.offsetLimit + 1) :
    Mirrored path place t.offsetLimit (t.absolute path) { content } { tree := t } :=
  ⟨rfl, rfl, h, hlength, fun _ => rfl, nofun⟩

end ByteVector.Mirrored

/-! ## Storages in memory -/

namespace FileStep

/-- The step reads or changes bytes. -/
def isAccess : FileStep → Bool
  | read .. => true
  | write .. => true
  | resize _ => true
  | _ => false

/-- Of the answers to steps those to accesses. -/
def accessed {α : Type} : List FileStep → List α → List α
  | step :: steps, a :: answers =>
    if step.isAccess then a :: accessed steps answers else accessed steps answers
  | _, _ => []

end FileStep

/-- Carries out a step on a storage in memory, which is always open. -/
def Storage.perform : FileStep → EStateM FileError Storage (Option Bytes)
  | .openFile _ => pure none
  | .close => pure none
  | .read offset size => fun s =>
    match read offset size s with
    | .ok bytes s => .ok (some bytes) s
    | .error e s => .error (.stream e) s
  | .write offset src => fun s => .ok none (s.write offset src)
  | .resize n => fun s => .ok none (s.resize n)

/-- An answer up to how an error is worded: what was read, or the code of the error. -/
def FileStep.outcome : Except FileError (Option Bytes) → Except (Option ErrorCode) (Option Bytes)
  | .ok a => .ok a
  | .error (.stream e) => .error (some e.report.code)
  | .error _ => .error none

theorem FileStep.outcome_pastEnd (medium : Medium) :
    outcome (.error (.stream (.pastEnd medium))) = .error (some .invalidArgument) := rfl

/-- Opening and closing change no bytes. -/
theorem ByteVector.bytes_after (name : String) {v : ByteVector} {step : FileStep}
    (hstep : step.isAccess = false) : (v.after name step).bytes = v.bytes := by
  cases step with
  | openFile writable =>
      by_cases hmissing : v.content.isNone = true ∧ (!writable) = true
      · have hperform : perform name (.openFile writable) v = .error _ _ := if_pos hmissing
        rw [after, hperform]
        rfl
      · have hperform : perform name (.openFile writable) v = .ok _ _ := if_neg hmissing
        rw [after, hperform]
        rfl
  | close => rfl
  | _ => cases hstep

/-- A storage in memory with the same bytes gives the same answer to an access. -/
theorem ByteVector.perform_storage (name : String) {step : FileStep} (hstep : step.isAccess)
    {v : ByteVector} {m : Storage} (h : m.bytes = v.bytes) :
    Ends (Storage.perform step) m
      (fun a m' => ∃ v', perform name step v = .ok a v' ∧ m'.bytes = v'.bytes)
      (fun e m' => ∃ e' v', perform name step v = .error e' v' ∧ m'.bytes = v'.bytes ∧
        FileStep.outcome (.error e) = FileStep.outcome (.error e')) := by
  have hsize : m.size = v.bytes.length := by rw [Storage.size, h]
  cases step with
  | read offset size =>
      by_cases hpast : v.bytes.length < offset + size
      · have hread := Storage.read_eq_error (s := m) (hsize ▸ hpast)
        have hperform : Storage.perform (.read offset size) m =
            .error (.stream (.pastEnd m.medium)) { m with reads := m.reads + 1 } := by
          simp only [Storage.perform, hread]
        have hsame : FileStep.outcome (.error (.stream (.pastEnd m.medium))) =
            FileStep.outcome (.error (.stream (.pastEnd (.file name)))) := by
          rw [FileStep.outcome_pastEnd, FileStep.outcome_pastEnd]
        exact .of_error hperform ⟨_, v, if_pos hpast, h, hsame⟩
      · have hread : Storage.read offset size m = .ok _ _ := Storage.read_eq_ok (by omega)
        have hperform : Storage.perform (.read offset size) m =
            .ok (some (Bytes.slice offset size m.bytes)) { m with reads := m.reads + 1 } := by
          simp only [Storage.perform, hread]
        refine .of_ok hperform ⟨v, ?_, h⟩
        rw [h]
        exact if_neg hpast
  | write offset src => exact .of_ok rfl ⟨_, rfl, congrArg (Bytes.write offset src) h⟩
  | resize n => exact .of_ok rfl ⟨_, rfl, congrArg (Bytes.resize n) h⟩
  | _ => cases hstep

/-- A storage in memory with the same bytes gives the same answers to the accesses of steps in a
row. -/
theorem ByteVector.run_storage (name : String) (steps : List FileStep) {v : ByteVector}
    {m : Storage} (h : m.bytes = v.bytes) :
    (FileStep.accessed steps (FileStep.run (perform name) steps v).1).map FileStep.outcome =
        (FileStep.run Storage.perform (steps.filter FileStep.isAccess) m).1.map FileStep.outcome ∧
      (FileStep.run Storage.perform (steps.filter FileStep.isAccess) m).2.bytes =
        (FileStep.run (perform name) steps v).2.bytes := by
  induction steps generalizing v m with
  | nil => exact ⟨rfl, h⟩
  | cons step rest ih =>
      cases hstep : step.isAccess with
      | false =>
          have hbytes := bytes_after name (v := v) hstep
          rw [after] at hbytes
          rw [List.filter_cons_of_neg (by simp [hstep]), FileStep.run]
          cases hv : perform name step v with
          | ok a v' =>
              rw [hv] at hbytes
              simp only [FileStep.accessed, hstep]
              exact ih (h.trans hbytes.symm)
          | error e v' =>
              rw [hv] at hbytes
              simp only [FileStep.accessed, hstep]
              exact ih (h.trans hbytes.symm)
      | true =>
          have hends := perform_storage name hstep h
          rw [List.filter_cons_of_pos hstep, FileStep.run, FileStep.run]
          cases hm : Storage.perform step m with
          | ok a m' =>
              obtain ⟨v', hv, h'⟩ := hends.ok hm
              obtain ⟨hanswers, hbytes⟩ := ih h'
              simp only [hv, FileStep.accessed, hstep, if_true, List.map_cons]
              exact ⟨congrArg _ hanswers, hbytes⟩
          | error e m' =>
              obtain ⟨e', v', hv, h', hsame⟩ := hends.error hm
              obtain ⟨hanswers, hbytes⟩ := ih h'
              simp only [hv, FileStep.accessed, hstep, if_true, List.map_cons, hsame]
              exact ⟨congrArg _ hanswers, hbytes⟩

/-! ## Any sequence of steps -/

/-- Whatever is done with a file, it answers as a vector of bytes does, holds the bytes of the vector
afterwards, and has their number as its size. A storage in memory gives the same answers to the reads
and holds the same bytes. -/
theorem file_is_byte_vector {t : FileTree} {path : String} {content : Option Bytes}
    (hfile : t.Holds path content) (hlength : (content.getD []).length ≤ t.offsetLimit + 1)
    {steps : List FileStep}
    (hsteps : ByteVector.AdmitsAll t.offsetLimit (t.absolute path) { content } steps) :
    ∃ answers d v recalled m,
      FileStep.run (FileStep.perform path) steps { tree := t } = (answers, d) ∧
      FileStep.run (ByteVector.perform (t.absolute path)) steps { content } = (answers, v) ∧
      FileStep.run Storage.perform (steps.filter FileStep.isAccess) { bytes := content.getD [] } =
        (recalled, m) ∧
      d.tree.Holds path v.content ∧
      (d.opened.map OpenFile.size = v.mode.map fun _ => v.bytes.length) ∧
      (FileStep.accessed steps answers).map FileStep.outcome = recalled.map FileStep.outcome ∧
      m.bytes = v.bytes := by
  obtain ⟨place, hplace⟩ := hfile
  obtain ⟨hanswers, hleft⟩ := (ByteVector.Mirrored.of_holds hplace hlength).run hsteps
  obtain ⟨hrecalled, hbytes⟩ := ByteVector.run_storage (t.absolute path) steps
    (v := { content }) (m := { bytes := content.getD [] }) rfl
  refine ⟨_, _, _, _, _, rfl, Prod.ext hanswers.symm rfl, rfl, ⟨place, hleft.holds⟩, hleft.size_eq,
    ?_, hbytes⟩
  rw [hanswers]
  exact hrecalled

/-- Bytes that were cut off don't come back, and a gap is filled with zeros. -/
theorem file_is_byte_vector_after_cut :
    ∃ d : FileDesk,
      FileStep.run (FileStep.perform "f")
          [.openFile true, .write 3 [1, 2, 3], .resize 4, .resize 6, .close, .openFile false,
            .read 2 4, .read 5 2, .read 6 0]
          { tree := { nodes := [], current := [] } } =
        ([.ok none, .ok none, .ok none, .ok none, .ok none, .ok none, .ok (some [0, 1, 0, 0]),
          .error (.stream (.pastEnd (.file "/f"))), .ok (some [])], d) ∧
      d.tree.Holds "f" (some [0, 0, 0, 1, 0, 0]) ∧ d.opened.map OpenFile.size = some 6 := by
  have hleads : ({ nodes := [], current := [] } : FileTree).Leads 40 [] ["f"] (.free ["f"]) :=
    .free rfl ⟨by decide, by decide, by decide⟩ rfl
  have hfile : ({ nodes := [], current := [] } : FileTree).Holds "f" none :=
    ⟨["f"], FileTree.resolve_eq_ok.mpr ⟨by decide, by decide, hleads⟩⟩
  have hsteps : ByteVector.AdmitsAll (Word.half - 1) "/f" { content := none }
      [.openFile true, .write 3 [1, 2, 3], .resize 4, .resize 6, .close, .openFile false,
        .read 2 4, .read 5 2, .read 6 0] := by decide +kernel
  obtain ⟨answers, d, v, -, -, hd, hv, -, hholds, hsize, -⟩ :=
    file_is_byte_vector hfile (Nat.zero_le _) hsteps
  obtain ⟨rfl, rfl⟩ := Prod.mk.inj hv
  exact ⟨d, hd, hholds, hsize⟩

end ChunkGuard
