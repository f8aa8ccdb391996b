import SystemProgramming.Popen.Streams
import Mathlib.Order.Nat

/-! # The ends of the pipes over a whole run

Every pipe belongs to one call of `my_popen`. The parent holds its end for as long as the stream is
open. A child starts with the parent's streams and both ends of its own pipe and is rid of
everything but its own end when its command starts.
-/

namespace SystemProgramming.Popen

open Lib

variable {ρ : Type*}

/-! ## The invariant -/

/-- What a child holds at each place. -/
def Child.Fits (c : Child ρ) : Prop :=
  match c.pc with
  | .drop => Streams (ends c.r c.w c.pipe) c.fds c.files c.dict ∧ c.r ≠ c.w ∧
      c.fds.get c.r = some (.pipe c.pipe false) ∧ c.fds.get c.w = some (.pipe c.pipe true)
  | .close => c.r ≠ c.w ∧
      ∀ fd id write, c.fds.get fd = some (.pipe id write) ↔ ends c.r c.w c.pipe fd id write
  | .dup2 => ∀ fd id write, c.fds.get fd = some (.pipe id write) ↔
      id = c.pipe ∧ fd = c.own ∧ write = !c.write
  | .execl => ∀ fd id write, c.fds.get fd = some (.pipe id write) ↔
      id = c.pipe ∧ fd = c.standard ∧ write = !c.write
  | .exited _ => True

/-- What no step of a child changes. -/
def Child.identity (c : Child ρ) : ℕ × Bool × ℕ := (c.pid, c.write, c.pipe)

theorem Child.identity_eq {c d : Child ρ} (same : c.identity = d.identity) :
    c.pid = d.pid ∧ c.write = d.write ∧ c.pipe = d.pipe := by
  simpa only [identity, Prod.mk.injEq] using same

structure Inv (s : State ρ) : Prop where
  streams : Streams noEnds s.fds s.files s.dict
  below : ∀ fp file, s.files fp = some file → file.pipe < s.made
  fits : ∀ (i : ℕ) (c : Child ρ), s.children[i]? = some c → c.Fits ∧ c.pipe < s.made
  apart : ∀ (i j : ℕ) (c d : Child ρ), s.children[i]? = some c → s.children[j]? = some d → c.pipe = d.pipe → i = j
  owned : ∀ fp file i, s.files fp = some file → file.child = some i →
    ∃ c : Child ρ, s.children[i]? = some c ∧ c.pipe = file.pipe ∧ c.write = file.write
  owns : ∀ (i : ℕ) (c : Child ρ) (fp : ℕ) file, s.children[i]? = some c → s.files fp = some file →
    file.pipe = c.pipe →
    file.child = some i

theorem inv_start (fds : FdTable ρ) : Inv (start fds) where
  streams := by
    refine ⟨fun fd id write holds => ?_, fun _ _ open_ => (nomatch open_), fun _ _ _ _ _ => not_false,
      fun _ _ _ _ open_ => (nomatch open_), fun _ => Iff.rfl⟩
    obtain ⟨target, -, same⟩ := Option.map_eq_some_iff.mp holds
    nomatch same
  below _ _ open_ := nomatch open_
  fits _ _ here := nomatch here
  apart _ _ _ _ here := nomatch here
  owned _ _ _ open_ := nomatch open_
  owns _ _ _ _ here := nomatch here

/-! ## A child's own steps -/

theorem act_fits {c next : Child ρ} (fits : c.Fits) (acts : c.act = some next) :
    next.Fits ∧ next.identity = c.identity := by
  obtain ⟨pid, write, pipe, r, w, pc, fds, files, dict, received, reaped⟩ := c
  cases pc with
  | drop =>
    obtain ⟨streams, distinct, reader, writer⟩ := fits
    simp only [Child.act] at acts
    split_ifs at acts with empty
    cases acts
    refine ⟨⟨distinct, fun fd id mode => ⟨fun holds => ?_, ?_⟩⟩, rfl⟩
    · obtain own | ⟨fp, file, open_, -⟩ := streams.held fd id mode holds
      · exact own
      · -- an open stream would still be in the dictionary
        have listed := (streams.known fp).mpr (by rw [open_]; rfl)
        rw [empty] at listed
        nomatch listed
    · rintro ⟨rfl, rfl⟩
      cases mode
      · exact reader
      · exact writer
  | close =>
    cases acts
    obtain ⟨distinct, table⟩ := fits
    refine ⟨fun fd id mode => ?_, rfl⟩
    dsimp only at distinct table
    cases write <;> cases mode <;> grind [FdTable.get_close, Child.parents, Child.own, ends]
  | dup2 =>
    have source : fds.get (if write then r else w) = some (.pipe pipe !write) :=
      (fits _ _ _).mpr ⟨rfl, rfl, rfl⟩
    simp only [Child.act] at acts
    split_ifs at acts with already
    · cases acts
      refine ⟨fun fd id mode => (fits fd id mode).trans ?_, rfl⟩
      rw [already]
      rfl
    · cases acts
      refine ⟨fun fd id mode => ?_, rfl⟩
      have table := fits fd id mode
      dsimp only at table ⊢
      rw [FdTable.get_close, Child.own, FdTable.get_dup2 _ source]
      simp only [Child.own, Child.standard] at already table ⊢
      cases write <;> grind
  | execl => nomatch acts
  | exited status => nomatch acts

theorem act_frame {c next : Child ρ} (acts : c.act = some next) :
    c.hasExited = false ∧ next.pc ≠ .drop ∧ next.reaped = c.reaped ∧ next.received = c.received := by
  obtain ⟨pid, write, pipe, r, w, pc, fds, files, dict, received, reaped⟩ := c
  cases pc with
  | drop =>
    simp only [Child.act] at acts
    split_ifs at acts
    cases acts
    exact ⟨rfl, nofun, rfl, rfl⟩
  | close => cases acts; exact ⟨rfl, nofun, rfl, rfl⟩
  | dup2 =>
    simp only [Child.act] at acts
    split_ifs at acts <;> cases acts <;> exact ⟨rfl, nofun, rfl, rfl⟩
  | execl => nomatch acts
  | exited status => nomatch acts

theorem drop_fits {c : Child ρ} (fits : c.Fits) (place : c.pc = .drop) {fp : ℕ} {file : File}
    (open_ : c.files fp = some file) :
    Child.Fits { c with
      fds := c.fds.close file.fd
      files := Function.update c.files fp none
      dict := erase fp c.dict } := by
  rw [Child.Fits, place] at fits
  obtain ⟨streams, distinct, reader, writer⟩ := fits
  have target := streams.stream fp file open_
  have foreign := streams.foreign fp file open_
  have unowned (fd : ℕ) (mode : Bool) (own : c.fds.get fd = some (.pipe c.pipe mode)) :
      fd ≠ file.fd := by
    rintro rfl
    obtain ⟨pipe, -⟩ := Handle.pipe.inj (Option.some.inj (target.symm.trans own))
    exact foreign _ true ⟨pipe, rfl⟩
  rw [Child.Fits]
  dsimp only
  rw [place]
  refine ⟨streams.close open_, distinct, ?_, ?_⟩
  · rw [FdTable.get_close, if_neg (unowned c.r false reader)]
    exact reader
  · rw [FdTable.get_close, if_neg (unowned c.w true writer)]
    exact writer

/-! ## One event -/

section

variable {s t : State ρ}

/-- A child takes a step of its own. -/
theorem Inv.setChild (inv : Inv s) {i : ℕ} {c next : Child ρ} (here : s.children[i]? = some c)
    (fits : next.Fits) (same : next.identity = c.identity) : Inv (s.setChild i next) := by
  obtain ⟨-, write, pipe⟩ := Child.identity_eq same
  constructor
  · exact inv.streams
  · exact inv.below
  · intro j d there
    obtain ⟨rfl, rfl⟩ | ⟨-, there⟩ := getElem?_set_cases there
    · exact ⟨fits, pipe ▸ (inv.fits _ c here).2⟩
    · exact inv.fits j d there
  · intro j k d e there there' pipes
    rcases getElem?_set_cases there with ⟨rfl, rfl⟩ | ⟨-, old⟩ <;>
      rcases getElem?_set_cases there' with ⟨rfl, rfl⟩ | ⟨-, old'⟩
    · rfl
    · exact inv.apart _ _ c e here old' (pipe.symm.trans pipes)
    · exact inv.apart _ _ d c old here (pipes.trans pipe)
    · exact inv.apart _ _ d e old old' pipes
  · intro fp file j open_ child
    obtain ⟨d, there, rest⟩ := inv.owned fp file j open_ child
    obtain ⟨e, there', same'⟩ := getElem?_set_of_some here same there
    obtain ⟨-, write', pipe'⟩ := Child.identity_eq same'
    exact ⟨e, there', by rwa [pipe', write']⟩
  · intro j d fp file there open_ pipes
    obtain ⟨rfl, rfl⟩ | ⟨-, there⟩ := getElem?_set_cases there
    · exact inv.owns _ c fp file here open_ (pipes.trans pipe)
    · exact inv.owns j d fp file there open_ pipes

/-- The streams and the child of a new pipe. -/
theorem Inv.popen_streams (inv : Inv s) {fp : ℕ} (free : s.files fp = none) (write : Bool)
    (child : Option ℕ) (pid : ℤ) (forked : ℕ) :
    Streams noEnds (s.popen write fp child pid).fds (s.popen write fp child pid).files
      (s.popen write fp child pid).dict ∧ (s.forked write forked).Fits := by
  rw [State.popen, State.forked]
  rcases opened : s.fds.pipe (.pipe s.made false) (.pipe s.made true) with ⟨⟨r, w⟩, next⟩
  have ⟨both, distinct, reader, writer⟩ := inv.streams.pipe inv.below opened
  exact ⟨both.fdopen distinct reader writer free write child pid, both, distinct, reader, writer⟩

/-- The streams after `my_popen`. -/
theorem popen_files {write : Bool} {fp gp : ℕ} {child : Option ℕ} (pid : ℤ) {file : File}
    (open_ : (s.popen write fp child pid).files gp = some file) :
    gp = fp ∧ file.write = write ∧ file.pipe = s.made ∧ file.child = child ∧ file.buffer = [] ∨
      gp ≠ fp ∧ s.files gp = some file := by
  rw [State.popen] at open_
  obtain ⟨rfl, ⟨⟩⟩ | old := update_eq_some.mp open_
  · exact .inl ⟨rfl, rfl, rfl, rfl, rfl⟩
  · exact .inr old

theorem Inv.myPopen (inv : Inv s) {fp : ℕ} (free : s.files fp = none) (write : Bool) (pid : ℕ) :
    Inv { s.popen write fp (some s.children.length) pid with
      children := s.children ++ [s.forked write pid] } := by
  obtain ⟨streams, fits⟩ := inv.popen_streams free write (some s.children.length) pid pid
  constructor
  · exact streams
  · intro gp file open_
    obtain ⟨-, -, pipe, -⟩ | ⟨-, open_⟩ := popen_files pid open_
    · exact pipe ▸ Nat.lt_succ_self _
    · exact (inv.below gp file open_).trans (Nat.lt_succ_self _)
  · intro i c here
    obtain ⟨-, rfl⟩ | ⟨-, here⟩ := getElem?_append_cases here
    · exact ⟨fits, Nat.lt_succ_self _⟩
    · exact ⟨(inv.fits i c here).1, (inv.fits i c here).2.trans (Nat.lt_succ_self _)⟩
  · intro i j c d here there pipes
    rcases getElem?_append_cases here with ⟨rfl, rfl⟩ | ⟨-, here⟩ <;>
      rcases getElem?_append_cases there with ⟨rfl, rfl⟩ | ⟨-, there⟩
    · rfl
    · exact absurd pipes.symm (inv.fits j d there).2.ne
    · exact absurd pipes (inv.fits i c here).2.ne
    · exact inv.apart i j c d here there pipes
  · intro gp file i open_ child
    obtain ⟨-, mode, pipe, owner, -⟩ | ⟨-, open_⟩ := popen_files pid open_
    · obtain rfl : s.children.length = i := Option.some.inj (owner.symm.trans child)
      exact ⟨_, List.getElem?_concat_length, pipe.symm, mode.symm⟩
    · obtain ⟨c, here, rest⟩ := inv.owned gp file i open_ child
      exact ⟨c, getElem?_append_of_some here, rest⟩
  · intro i c gp file here open_ pipes
    rcases getElem?_append_cases here with ⟨rfl, rfl⟩ | ⟨-, here⟩ <;>
      rcases popen_files pid open_ with ⟨-, -, pipe, owner, -⟩ | ⟨-, open_⟩
    · exact owner
    · exact absurd pipes (inv.below gp file open_).ne
    · exact absurd (pipes.symm.trans pipe) (inv.fits i c here).2.ne
    · exact inv.owns i c gp file here open_ pipes

theorem Inv.myPopenUnforked (inv : Inv s) {fp : ℕ} (free : s.files fp = none) (write : Bool) :
    Inv (s.popen write fp none (-1)) := by
  obtain ⟨streams, -⟩ := inv.popen_streams free write none (-1) 0
  constructor
  · exact streams
  · intro gp file open_
    obtain ⟨-, -, pipe, -⟩ | ⟨-, open_⟩ := popen_files (-1) open_
    · exact pipe ▸ Nat.lt_succ_self _
    · exact (inv.below gp file open_).trans (Nat.lt_succ_self _)
  · intro i c here
    exact ⟨(inv.fits i c here).1, (inv.fits i c here).2.trans (Nat.lt_succ_self _)⟩
  · exact inv.apart
  · intro gp file i open_ child
    obtain ⟨-, -, -, owner, -⟩ | ⟨-, open_⟩ := popen_files (-1) open_
    · nomatch owner.symm.trans child
    · exact inv.owned gp file i open_ child
  · intro i c gp file here open_ pipes
    obtain ⟨-, -, pipe, -⟩ | ⟨-, open_⟩ := popen_files (-1) open_
    · exact absurd (pipes.symm.trans pipe) (inv.fits i c here).2.ne
    · exact inv.owns i c gp file here open_ pipes

/-- The parent closes a stream. -/
theorem Inv.fclose (inv : Inv s) {fp : ℕ} {file : File} (here : s.files fp = some file)
    (pipes : ℕ → Pipe) (wait : Option Wait) :
    Inv { s with
      fds := s.fds.close file.fd
      files := Function.update s.files fp none
      dict := erase fp s.dict
      pipes := pipes
      wait := wait } := by
  have other {gp : ℕ} {file' : File} (open_ : Function.update s.files fp none gp = some file') :
      s.files gp = some file' := (update_none_eq_some.mp open_).2
  exact ⟨inv.streams.close here, fun gp file' open_ => inv.below gp file' (other open_), inv.fits,
    inv.apart, fun gp file' i open_ => inv.owned gp file' i (other open_),
    fun i c gp file' here open_ => inv.owns i c gp file' here (other open_)⟩

/-- Up to its buffer, every stream is one from before the write. -/
theorem of_rebuffered {files : ℕ → Option File} {fp gp : ℕ} {file file' : File} {buffer : Bytes}
    (here : files fp = some file)
    (open_ : Function.update files fp (some { file with buffer := buffer }) gp = some file') :
    ∃ before, files gp = some before ∧ file'.fd = before.fd ∧ file'.write = before.write ∧
      file'.pipe = before.pipe ∧ file'.child = before.child := by
  obtain ⟨rfl, ⟨⟩⟩ | ⟨-, open_⟩ := update_eq_some.mp open_
  · exact ⟨file, here, rfl, rfl, rfl, rfl⟩
  · exact ⟨file', open_, rfl, rfl, rfl, rfl⟩

/-- A buffer changes. -/
theorem Inv.buffer (inv : Inv s) {fp : ℕ} {file : File} (here : s.files fp = some file)
    (buffer : Bytes) (pipes : ℕ → Pipe) :
    Inv { s with
      files := Function.update s.files fp (some { file with buffer := buffer })
      pipes := pipes } := by
  refine ⟨⟨fun fd id write holds => ?_, fun gp file' open_ => ?_, fun _ _ _ _ _ => not_false,
    fun gp gp' file' file'' open_ open' same => ?_, fun gp => ?_⟩, fun gp file' open_ => ?_, inv.fits,
    inv.apart, fun gp file' i open_ child => ?_, fun i c gp file' there open_ same => ?_⟩
  · obtain extra | ⟨gp, file', open_, rest⟩ := inv.streams.held fd id write holds
    · exact .inl extra
    · refine .inr ⟨gp, ?_⟩
      dsimp only
      rw [Function.update_apply]
      split_ifs with same
      · cases (same ▸ here).symm.trans open_
        exact ⟨_, rfl, rest⟩
      · exact ⟨file', open_, rest⟩
  · obtain ⟨before, open_, fd, write, pipe, -⟩ := of_rebuffered here open_
    rw [fd, write, pipe]
    exact inv.streams.stream gp before open_
  · obtain ⟨before, open_, -, -, pipe, -⟩ := of_rebuffered here open_
    obtain ⟨before', open', -, -, pipe', -⟩ := of_rebuffered here open'
    exact inv.streams.apart gp gp' before before' open_ open' (by rw [← pipe, ← pipe', same])
  · rw [inv.streams.known gp]
    dsimp only
    rw [Function.update_apply]
    split_ifs with same
    · rw [same, here]
      exact Iff.rfl
    · exact Iff.rfl
  · obtain ⟨before, open_, -, -, pipe, -⟩ := of_rebuffered here open_
    rw [pipe]
    exact inv.below gp before open_
  · obtain ⟨before, open_, -, write, pipe, owner⟩ := of_rebuffered here open_
    rw [pipe, write]
    exact inv.owned gp before i open_ (owner.symm.trans child)
  · obtain ⟨before, open_, -, -, pipe, owner⟩ := of_rebuffered here open_
    rw [owner]
    exact inv.owns i c gp before there open_ (pipe.symm.trans same)

theorem inv_step {e : Event} (inv : Inv s) (taken : step s e = some t) : Inv t := by
  cases e with
  | myPopen write fp pid =>
    obtain ⟨-, free, -, -, rfl⟩ := step_myPopen taken
    exact inv.myPopen free write pid
  | myPopenUnforked write fp =>
    obtain ⟨-, free, rfl⟩ := step_myPopenUnforked taken
    exact inv.myPopenUnforked free write
  | fwrite fp bytes flushed =>
    obtain ⟨file, here, -, rfl⟩ := step_fwrite taken
    exact inv.buffer here _ _
  | myPclose fp =>
    obtain ⟨-, file, pid, here, -, rfl⟩ := step_myPclose taken
    exact inv.fclose here _ _
  | interrupted =>
    obtain ⟨wait, -, rfl⟩ := step_interrupted taken
    exact ⟨inv.streams, inv.below, inv.fits, inv.apart, inv.owned, inv.owns⟩
  | reaps i =>
    obtain ⟨wait, c, status, -, here, place, -, rfl⟩ := step_reaps taken
    have next : Inv (s.setChild i { c with reaped := true }) :=
      inv.setChild here (inv.fits i c here).1 rfl
    exact ⟨next.streams, next.below, next.fits, next.apart, next.owned, next.owns⟩
  | noChild =>
    obtain ⟨wait, -, -, rfl⟩ := step_noChild taken
    exact ⟨inv.streams, inv.below, inv.fits, inv.apart, inv.owned, inv.owns⟩
  | drop i fp =>
    obtain ⟨c, file, here, place, open_, rfl⟩ := step_drop taken
    have next := inv.setChild here (drop_fits (inv.fits i c here).1 place open_) rfl
    exact ⟨next.streams, next.below, next.fits, next.apart, next.owned, next.owns⟩
  | act i =>
    obtain ⟨c, next, here, acts, rfl⟩ := step_act taken
    obtain ⟨fits, same⟩ := act_fits (inv.fits i c here).1 acts
    exact inv.setChild here fits same
  | read i n =>
    obtain ⟨c, id, here, -, -, rfl⟩ := step_read taken
    have next : Inv (s.setChild i { c with received := c.received ++ (s.pipes id).content.take n }) :=
      inv.setChild here (inv.fits i c here).1 rfl
    exact ⟨next.streams, next.below, next.fits, next.apart, next.owned, next.owns⟩
  | exit i status =>
    obtain ⟨c, here, -, rfl⟩ := step_exit taken
    exact inv.setChild here trivial rfl

end

/-! ## Every end has one holder -/

/-- All children created so far have reached `execl`; some may have ended since. -/
def Settled (s : State ρ) : Prop := ∀ c ∈ s.children, c.pc = .execl ∨ c.hasExited = true

instance (s : State ρ) : Decidable (Settled s) :=
  inferInstanceAs (Decidable (∀ c ∈ s.children, c.pc = .execl ∨ c.hasExited = true))

/-- The descriptors of a child are closed when it exits. -/
def Child.Holds (c : Child ρ) (fd id : ℕ) (write : Bool) : Prop :=
  c.hasExited = false ∧ c.fds.get fd = some (.pipe id write)

structure Separate (s : State ρ) : Prop where
  /-- The parent holds its end of an open stream, once, -/
  stream : ∀ fp file, s.files fp = some file →
    ∀ fd, s.fds.get fd = some (.pipe file.pipe file.write) ↔ fd = file.fd
  /-- and no child holds it. -/
  parent : ∀ fp file, s.files fp = some file →
    ∀ c ∈ s.children, ∀ fd, ¬ c.Holds fd file.pipe file.write
  /-- A command holds its end of its pipe on its standard descriptor and no other end. -/
  child : ∀ c ∈ s.children, c.pc = .execl →
    ∀ fd id write, c.Holds fd id write ↔ id = c.pipe ∧ fd = c.standard ∧ write = !c.write
  /-- When a write stream is closed its pipe has no writer. -/
  closed : ∀ (i : ℕ) (c : Child ρ), s.children[i]? = some c → c.write = true →
    (∀ fp file, s.files fp = some file → file.child ≠ some i) →
    (∀ fd, s.fds.get fd ≠ some (.pipe c.pipe true)) ∧ ∀ d ∈ s.children, ∀ fd, ¬ d.Holds fd c.pipe true

theorem Inv.separate {s : State ρ} (inv : Inv s) (settled : Settled s) : Separate s := by
  have holds {i : ℕ} {c : Child ρ} (here : s.children[i]? = some c) {fd id : ℕ} {write : Bool}
      (held : c.Holds fd id write) : id = c.pipe ∧ fd = c.standard ∧ write = !c.write := by
    obtain ⟨running, target⟩ := held
    have place := (settled c (List.mem_of_getElem? here)).resolve_right (by rw [running]; nofun)
    have fits := (inv.fits i c here).1
    rw [Child.Fits, place] at fits
    exact (fits fd id write).mp target
  refine ⟨fun fp file open_ fd => ⟨fun held => ?_, ?_⟩, fun fp file open_ c member fd held => ?_,
    fun c member place fd id write => ⟨fun held => ?_, fun own => ?_⟩,
    fun i c here write closed => ⟨fun fd held => ?_, fun d member fd held => ?_⟩⟩
  · obtain impossible | ⟨gp, file', open', rfl, pipe, -⟩ := inv.streams.held _ _ _ held
    · exact impossible.elim
    · obtain rfl := inv.streams.apart fp gp file file' open_ open' pipe.symm
      cases open_.symm.trans open'
      rfl
  · rintro rfl
    exact inv.streams.stream fp file open_
  · obtain ⟨i, here⟩ := List.getElem?_of_mem member
    obtain ⟨pipe, -, write⟩ := holds here held
    obtain ⟨c', here', -, same⟩ := inv.owned fp file i open_ (inv.owns i c fp file here open_ pipe)
    cases here.symm.trans here'
    rw [same] at write
    exact (Bool.eq_not_self _).mp write
  · obtain ⟨i, here⟩ := List.getElem?_of_mem member
    exact holds here held
  · obtain ⟨i, here⟩ := List.getElem?_of_mem member
    have fits := (inv.fits i c here).1
    rw [Child.Fits, place] at fits
    exact ⟨by rw [Child.hasExited, place], (fits fd id write).mpr own⟩
  · obtain impossible | ⟨fp, file, open_, -, pipe, -⟩ := inv.streams.held _ _ _ held
    · exact impossible.elim
    · exact closed fp file open_ (inv.owns i c fp file here open_ pipe)
  · obtain ⟨j, there⟩ := List.getElem?_of_mem member
    obtain ⟨pipe, -, mode⟩ := holds there held
    obtain rfl := inv.apart i j c d here there pipe
    cases here.symm.trans there
    rw [write] at mode
    nomatch mode

/-- Whatever streams are opened and closed, in every state in which the children run their commands
no end of a pipe is where it does not belong. -/
theorem ends_separate {fds : FdTable ρ} {s : State ρ} (reached : Reachable step (start fds) s)
    (settled : Settled s) : Separate s :=
  (reached.invariant (fun _ _ _ inv taken => inv_step inv taken) (inv_start fds)).separate settled

/-- A process without stdin. -/
def noStdin : FdTable Unit where
  get fd := if fd = 1 ∨ fd = 2 then some () else none
  bound := 3
  closed _ above := if_neg (by omega)

/-- A write stream whose child reads from descriptor 0 at once, and a read stream after it. -/
def twoStreams : List Event :=
  [.myPopen true 1 100, .act 0, .act 0, .act 0, .myPopen false 2 101, .drop 1 1, .act 1, .act 1, .act 1]

def twoStreamsEnd : State Unit := (exec step (start noStdin) twoStreams).get (by decide +kernel)

theorem ends_separate_twoStreams : Separate twoStreamsEnd :=
  ends_separate ⟨twoStreams, (Option.some_get _).symm⟩ (by decide +kernel)

end SystemProgramming.Popen
