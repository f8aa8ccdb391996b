import SystemProgramming.Popen.Ends

/-! # What arrives on a child's stdin

What is written to a stream is in its buffer, in its pipe or has been read. A child also has a copy of
every buffer the parent had at the fork, and writes it out in `drop`. If all of these are empty whenever
`my_popen` forks, no byte is duplicated.
-/

namespace SystemProgramming.Popen

open Lib

variable {ρ : Type*}

/-- Each child of a write stream reads the bytes written to the stream in order, and once the
stream is closed what it has not read is what is left in the pipe. -/
structure Delivered (s : State ρ) : Prop where
  ordered : ∀ (i : ℕ) (c : Child ρ), s.children[i]? = some c → c.write = true →
    c.received <+: (s.pipes c.pipe).written
  complete : ∀ (i : ℕ) (c : Child ρ), s.children[i]? = some c → c.write = true →
    (∀ fp file, s.files fp = some file → file.child ≠ some i) →
    c.received ++ (s.pipes c.pipe).content = (s.pipes c.pipe).written

/-- Nothing is buffered when `my_popen` forks. -/
def Unbuffered (s : State ρ) : Event → Prop
  | .myPopen _ _ _ => ∀ fp file, s.files fp = some file → file.write = true → file.buffer = []
  | .myPopenUnforked _ _ => True
  | .fwrite _ _ _ => True
  | .myPclose _ => True
  | .interrupted => True
  | .reaps _ => True
  | .noChild => True
  | .drop _ _ => True
  | .act _ => True
  | .read _ _ => True
  | .exit _ _ => True

structure Delivery (s : State ρ) : Prop where
  buffered : ∀ fp file, s.files fp = some file → file.write = true →
    (s.pipes file.pipe).sent ++ file.buffer = (s.pipes file.pipe).written
  flushed : ∀ id, (∀ fp file, s.files fp = some file → file.write = true → file.pipe ≠ id) →
    (s.pipes id).sent = (s.pipes id).written
  received : ∀ (i : ℕ) (c : Child ρ), s.children[i]? = some c → c.write = true →
    c.received ++ (s.pipes c.pipe).content = (s.pipes c.pipe).sent
  inherited : ∀ (i : ℕ) (c : Child ρ), s.children[i]? = some c → c.pc = .drop →
    ∀ fp file, c.files fp = some file → file.write = true → file.buffer = []

theorem delivery_start (fds : FdTable ρ) : Delivery (start fds) where
  buffered _ _ open_ := nomatch open_
  flushed _ _ := rfl
  received _ _ here := nomatch here
  inherited _ _ here := nomatch here

theorem writeTo_nil (handle : Option (Handle ρ)) (pipes : ℕ → Pipe) : writeTo handle [] pipes = pipes := by
  rcases handle with _ | target | ⟨id, _ | _⟩
  · rfl
  · rfl
  · rfl
  · have same : (pipes id).put [] = pipes id := by rw [Pipe.put, List.append_nil, List.append_nil]
    rw [writeTo, same, Function.update_eq_self]

section

variable {s t : State ρ}

theorem Inv.delivered (inv : Inv s) (delivery : Delivery s) : Delivered s := by
  constructor
  · intro i c here write
    rw [List.prefix_iff_exists_append_eq]
    by_cases open_ : ∃ fp file, s.files fp = some file ∧ file.write = true ∧ file.pipe = c.pipe
    · obtain ⟨fp, file, open_, mode, pipe⟩ := open_
      refine ⟨(s.pipes c.pipe).content ++ file.buffer, ?_⟩
      rw [← List.append_assoc, delivery.received i c here write, ← pipe]
      exact delivery.buffered fp file open_ mode
    · refine ⟨(s.pipes c.pipe).content, ?_⟩
      rw [delivery.received i c here write]
      exact delivery.flushed c.pipe fun fp file here mode same => open_ ⟨fp, file, here, mode, same⟩
  · intro i c here write closed
    rw [delivery.received i c here write]
    exact delivery.flushed c.pipe fun fp file open_ _ same =>
      closed fp file open_ (inv.owns i c fp file here open_ same)

/-- A child takes a step of its own. -/
theorem Delivery.setChild (delivery : Delivery s) {i : ℕ} {c next : Child ρ}
    (here : s.children[i]? = some c) (same : next.identity = c.identity)
    (kept : next.received = c.received)
    (inherited : next.pc = .drop →
      ∀ fp file, next.files fp = some file → file.write = true → file.buffer = []) :
    Delivery (s.setChild i next) := by
  obtain ⟨-, write, pipe⟩ := Child.identity_eq same
  constructor
  · exact delivery.buffered
  · exact delivery.flushed
  · intro j d there mode
    obtain ⟨rfl, rfl⟩ | ⟨-, old⟩ := getElem?_set_cases there
    · rw [kept, pipe]
      exact delivery.received _ c here (write ▸ mode)
    · exact delivery.received j d old mode
  · intro j d there place
    obtain ⟨rfl, rfl⟩ | ⟨-, old⟩ := getElem?_set_cases there
    · exact inherited place
    · exact delivery.inherited j d old place

theorem Delivery.popen (inv : Inv s) (delivery : Delivery s) {fp : ℕ} (free : s.files fp = none)
    (write : Bool) (child : Option ℕ) (pid : ℤ) : Delivery (s.popen write fp child pid) := by
  have old {id : ℕ} (other : id ≠ s.made) : (s.popen write fp child pid).pipes id = s.pipes id :=
    Function.update_of_ne other ..
  have new : (s.popen write fp child pid).pipes s.made = .empty := Function.update_self ..
  constructor
  · intro gp file open_ mode
    obtain ⟨-, -, pipe, -, buffer⟩ | ⟨-, open_⟩ := popen_files pid open_
    · rw [pipe, buffer, new]
      rfl
    · rw [old (inv.below gp file open_).ne]
      exact delivery.buffered gp file open_ mode
  · intro id closed
    by_cases made : id = s.made
    · rw [made, new]
      rfl
    · rw [old made]
      refine delivery.flushed id fun gp file open_ mode => closed gp file ?_ mode
      have different : gp ≠ fp := by
        rintro rfl
        nomatch free.symm.trans open_
      exact (Function.update_of_ne different ..).trans open_
  · intro i c here mode
    rw [old (inv.fits i c here).2.ne]
    exact delivery.received i c here mode
  · exact delivery.inherited

theorem Delivery.myPopen (inv : Inv s) (delivery : Delivery s) {fp : ℕ} (free : s.files fp = none)
    (unbuffered : ∀ gp file, s.files gp = some file → file.write = true → file.buffer = [])
    (write : Bool) (pid : ℕ) :
    Delivery { s.popen write fp (some s.children.length) pid with
      children := s.children ++ [s.forked write pid] } := by
  have opened := delivery.popen inv free write (some s.children.length) pid
  constructor
  · exact opened.buffered
  · exact opened.flushed
  · intro i c here mode
    obtain ⟨-, rfl⟩ | ⟨-, here⟩ := getElem?_append_cases here
    · -- nothing is in a new pipe
      change [] ++ (Function.update s.pipes s.made Pipe.empty s.made).content =
        (Function.update s.pipes s.made Pipe.empty s.made).sent
      rw [Function.update_self]
      rfl
    · exact opened.received i c here mode
  · intro i c here place
    obtain ⟨-, rfl⟩ | ⟨-, here⟩ := getElem?_append_cases here
    · exact unbuffered
    · exact delivery.inherited i c here place

/-- The parent writes from the buffer of a stream. -/
theorem Delivery.write (inv : Inv s) (delivery : Delivery s) {fp : ℕ} {file : File}
    (here : s.files fp = some file) {left : Option File} {p : Pipe} {bytes : Bytes}
    (content : p.content = (s.pipes file.pipe).content ++ bytes)
    (sent : p.sent = (s.pipes file.pipe).sent ++ bytes)
    (kept : ∀ file', left = some file' →
      file'.pipe = file.pipe ∧ file'.write = true ∧ p.sent ++ file'.buffer = p.written)
    (closed : left = none → p.sent = p.written) :
    Delivery { s with
      files := Function.update s.files fp left
      pipes := Function.update s.pipes file.pipe p } := by
  have other {id : ℕ} (different : id ≠ file.pipe) :
      Function.update s.pipes file.pipe p id = s.pipes id := Function.update_of_ne different ..
  have self : Function.update s.pipes file.pipe p file.pipe = p := Function.update_self ..
  refine ⟨fun gp file' open_ mode => ?_, fun id none_ => ?_, fun i c there mode => ?_,
    delivery.inherited⟩ <;> dsimp only
  · obtain ⟨-, same⟩ | ⟨different, open_⟩ := update_eq_some.mp open_
    · obtain ⟨pipe, -, whole⟩ := kept file' same
      rw [pipe, self, whole]
    · rw [other fun pipe => different (inv.streams.apart gp fp file' file open_ here pipe)]
      exact delivery.buffered gp file' open_ mode
  · by_cases same : id = file.pipe
    · rw [same, self]
      cases left with
      | none => exact closed rfl
      | some file' =>
        obtain ⟨pipe, mode, -⟩ := kept file' rfl
        exact absurd (pipe.trans same.symm) (none_ fp file' (Function.update_self ..) mode)
    · rw [other same]
      apply delivery.flushed id
      intro gp file' open_ mode pipe
      by_cases at_ : gp = fp
      · subst at_
        cases here.symm.trans open_
        exact same pipe.symm
      · exact none_ gp file' ((Function.update_of_ne at_ ..).trans open_) mode pipe
  · have before := delivery.received i c there mode
    by_cases same : c.pipe = file.pipe
    · rw [same, self, content, sent, ← List.append_assoc, ← same, before]
    · rw [other same]
      exact before

theorem Delivery.fwrite (inv : Inv s) (delivery : Delivery s) {fp : ℕ} {file : File}
    (here : s.files fp = some file) (write : file.write = true) (bytes : Bytes) (flushed : ℕ) :
    Delivery { s with
      files := Function.update s.files fp
        (some { file with buffer := (file.buffer ++ bytes).drop flushed })
      pipes := writeTo (s.fds.get file.fd) ((file.buffer ++ bytes).take flushed)
        (Function.update s.pipes file.pipe
          { s.pipes file.pipe with written := (s.pipes file.pipe).written ++ bytes }) } := by
  have target : s.fds.get file.fd = some (.pipe file.pipe true) :=
    write ▸ inv.streams.stream fp file here
  rw [target, writeTo, Function.update_self, Function.update_idem]
  refine delivery.write inv here rfl rfl (fun file' same => ?_) fun none_ => nomatch none_
  cases same
  refine ⟨rfl, write, ?_⟩
  rw [Pipe.put, List.append_assoc, List.take_append_drop, ← List.append_assoc,
    delivery.buffered fp file here write]

theorem Delivery.myPclose (inv : Inv s) (delivery : Delivery s) {fp : ℕ} {file : File}
    (here : s.files fp = some file) :
    Delivery { s with
      files := Function.update s.files fp none
      pipes := writeTo (s.fds.get file.fd) file.buffer s.pipes } := by
  have target := inv.streams.stream fp file here
  rw [target]
  cases mode : file.write with
  | true =>
    refine delivery.write inv here rfl rfl (fun _ some_ => nomatch some_) fun _ => ?_
    exact delivery.buffered fp file here mode
  | false =>
    constructor
    · intro gp file' open_
      exact delivery.buffered gp file' (update_none_eq_some.mp open_).2
    · intro id none_
      apply delivery.flushed id
      intro gp file' open_ write
      have different : gp ≠ fp := by
        rintro rfl
        cases here.symm.trans open_
        nomatch mode.symm.trans write
      exact none_ gp file' ((Function.update_of_ne different ..).trans open_) write
    · exact delivery.received
    · exact delivery.inherited

theorem Delivery.drop (inv : Inv s) (delivery : Delivery s) {i fp : ℕ} {c : Child ρ} {file : File}
    (here : s.children[i]? = some c) (place : c.pc = .drop) (open_ : c.files fp = some file) :
    Delivery { s.setChild i { c with
        fds := c.fds.close file.fd
        files := Function.update c.files fp none
        dict := erase fp c.dict } with
      pipes := writeTo (c.fds.get file.fd) file.buffer s.pipes } := by
  have fits := (inv.fits i c here).1
  rw [Child.Fits, place] at fits
  -- a copy of a read stream cannot be written to, and one of a write stream is empty
  have nothing : writeTo (c.fds.get file.fd) file.buffer s.pipes = s.pipes := by
    rw [fits.1.stream fp file open_]
    cases mode : file.write with
    | true => rw [delivery.inherited i c here place fp file open_ mode, writeTo_nil]
    | false => rfl
  rw [nothing]
  refine delivery.setChild here rfl rfl fun _ gp file' open' => ?_
  exact delivery.inherited i c here place gp file' (update_none_eq_some.mp open').2

theorem Delivery.read (inv : Inv s) (delivery : Delivery s) {i id n : ℕ} {c : Child ρ}
    (here : s.children[i]? = some c) (place : c.pc = .execl)
    (stdin : c.fds.get 0 = some (.pipe id false)) :
    Delivery { s.setChild i { c with received := c.received ++ (s.pipes id).content.take n } with
      pipes := Function.update s.pipes id
        { s.pipes id with content := (s.pipes id).content.drop n } } := by
  have fits := (inv.fits i c here).1
  rw [Child.Fits, place] at fits
  obtain ⟨rfl, -, mode⟩ := (fits 0 id false).mp stdin
  -- reading changes nothing but the content
  have kept (k : ℕ) :
      (Function.update s.pipes c.pipe
        { s.pipes c.pipe with content := (s.pipes c.pipe).content.drop n } k).sent = (s.pipes k).sent ∧
      (Function.update s.pipes c.pipe
        { s.pipes c.pipe with content := (s.pipes c.pipe).content.drop n } k).written =
          (s.pipes k).written := by
    rw [Function.update_apply]
    split_ifs with same
    · rw [same]
      exact ⟨rfl, rfl⟩
    · exact ⟨rfl, rfl⟩
  constructor
  · intro fp file open_ write
    rw [(kept _).1, (kept _).2]
    exact delivery.buffered fp file open_ write
  · intro k none_
    rw [(kept k).1, (kept k).2]
    exact delivery.flushed k none_
  · intro j d there write
    rw [(kept _).1]
    obtain ⟨rfl, rfl⟩ | ⟨other, old⟩ := getElem?_set_cases there
    · dsimp only
      rw [Function.update_self, List.append_assoc, List.take_append_drop]
      exact delivery.received _ c here write
    · dsimp only
      rw [Function.update_of_ne fun same => other (inv.apart j i d c old here same)]
      exact delivery.received j d old write
  · intro j d there dropping
    obtain ⟨rfl, rfl⟩ | ⟨-, old⟩ := getElem?_set_cases there
    · cases place.symm.trans dropping
    · exact delivery.inherited j d old dropping

theorem delivery_step {e : Event} (inv : Inv s) (delivery : Delivery s) (unbuffered : Unbuffered s e)
    (taken : step s e = some t) : Delivery t := by
  cases e with
  | myPopen write fp pid =>
    obtain ⟨-, free, -, -, rfl⟩ := step_myPopen taken
    exact delivery.myPopen inv free unbuffered write pid
  | myPopenUnforked write fp =>
    obtain ⟨-, free, rfl⟩ := step_myPopenUnforked taken
    exact delivery.popen inv free write none (-1)
  | fwrite fp bytes flushed =>
    obtain ⟨file, here, write, rfl⟩ := step_fwrite taken
    exact delivery.fwrite inv here write bytes flushed
  | myPclose fp =>
    obtain ⟨-, file, pid, here, -, rfl⟩ := step_myPclose taken
    have next := delivery.myPclose inv here
    exact ⟨next.buffered, next.flushed, next.received, next.inherited⟩
  | interrupted =>
    obtain ⟨wait, -, rfl⟩ := step_interrupted taken
    exact ⟨delivery.buffered, delivery.flushed, delivery.received, delivery.inherited⟩
  | reaps i =>
    obtain ⟨wait, c, status, -, here, -, -, rfl⟩ := step_reaps taken
    have next : Delivery (s.setChild i { c with reaped := true }) :=
      delivery.setChild here rfl rfl (delivery.inherited i c here)
    exact ⟨next.buffered, next.flushed, next.received, next.inherited⟩
  | noChild =>
    obtain ⟨wait, -, -, rfl⟩ := step_noChild taken
    exact ⟨delivery.buffered, delivery.flushed, delivery.received, delivery.inherited⟩
  | drop i fp =>
    obtain ⟨c, file, here, place, open_, rfl⟩ := step_drop taken
    exact delivery.drop inv here place open_
  | act i =>
    obtain ⟨c, next, here, acts, rfl⟩ := step_act taken
    obtain ⟨-, left, -, kept⟩ := act_frame acts
    exact delivery.setChild here (act_fits (inv.fits i c here).1 acts).2 kept
      fun place => absurd place left
  | read i n =>
    obtain ⟨c, id, here, place, stdin, rfl⟩ := step_read taken
    exact delivery.read inv here place stdin
  | exit i status =>
    obtain ⟨c, here, -, rfl⟩ := step_exit taken
    exact delivery.setChild here rfl rfl fun place => nomatch place

end

/-! ## Whole runs -/

/-- In every run in which nothing is buffered at a fork, every child gets what its stream was given. -/
theorem delivered_of_unbuffered {fds : FdTable ρ} {es : List Event} {s : State ρ}
    (ran : exec step (start fds) es = some s) (calm : AllSteps step Unbuffered (start fds) es) :
    Delivered s := by
  have both : Inv s ∧ Delivery s := exec_invariant_of_allSteps (I := fun s => Inv s ∧ Delivery s)
    (fun _ _ _ both calm taken => ⟨inv_step both.1 taken, delivery_step both.1 both.2 calm taken⟩)
    ran calm ⟨inv_start fds, delivery_start fds⟩
  exact both.1.delivered both.2

/-- One stream, whose byte stays in the buffer until it is closed. -/
def oneWriter : List Event :=
  [.myPopen true 1 100, .fwrite 1 [65] 0, .act 0, .act 0, .act 0, .myPclose 1, .read 0 2]

def oneWriterEnd : State Unit := (exec step (start noStdin) oneWriter).get (by decide +kernel)

theorem delivered_of_unbuffered_oneWriter : Delivered oneWriterEnd := by
  refine delivered_of_unbuffered (Option.some_get _).symm ⟨fun fp file open_ => (nomatch open_), ?_⟩
  intro t _
  apply allSteps_of_forall
  intro e member s
  simp only [List.mem_cons, List.not_mem_nil, or_false] at member
  obtain rfl | rfl | rfl | rfl | rfl | rfl := member <;> trivial

/-- The byte is also in the second child's copy of the first stream. -/
def twoWriters : List Event :=
  [.myPopen true 1 100, .fwrite 1 [65] 0, .myPopen true 2 101, .drop 1 1, .act 0, .act 0, .act 0,
    .myPclose 1, .read 0 2]

def twoWritersEnd : State Unit := (exec step (start noStdin) twoWriters).get (by decide +kernel)

/-- The first child reads it twice. -/
theorem not_delivered_twoWriters : ¬ ∀ s, Reachable step (start noStdin) s → Delivered s := by
  intro delivered
  have received : (twoWritersEnd.children[0]?).map (fun c => (c.write, c.pipe, c.received)) =
      some (true, 0, [65, 65]) := by decide +kernel
  have written : (twoWritersEnd.pipes 0).written = [65] := by decide +kernel
  obtain ⟨c, here, same⟩ := Option.map_eq_some_iff.mp received
  obtain ⟨write, pipe, twice⟩ : c.write = true ∧ c.pipe = 0 ∧ c.received = [65, 65] := by
    simpa only [Prod.mk.injEq] using same
  have short := ((delivered twoWritersEnd ⟨twoWriters, (Option.some_get _).symm⟩).ordered 0 c here
    write).length_le
  rw [pipe, written, twice] at short
  nomatch short

end SystemProgramming.Popen
