import SystemProgramming.Popen.Model
import SystemProgramming.Lib.Update

/-! # Who holds which end of which pipe

A process that uses the dictionary holds one end of a pipe for each of its open streams and, between
`pipe` and the closing of the ends it does not need, both ends of the new pipe. Opening and closing a
stream keep this, whether the parent does it in `my_popen` and `my_pclose` or a child in `drop`.
-/

namespace SystemProgramming.Popen

open Lib

variable {ρ : Type*}

/-! ## The dictionary -/

theorem lookup_erase (fp gp : ℕ) (dict : Dict) :
    (erase fp dict).lookup gp = if gp = fp then none else dict.lookup gp := by
  induction dict with
  | nil => rw [erase, List.filter_nil, List.lookup_nil, ite_self]
  | cons entry dict ih =>
    obtain ⟨key, pid⟩ := entry
    rw [erase] at ih ⊢
    grind

theorem lookup_insert {pid : ℤ} {fp : ℕ} {dict : Dict} (free : dict.lookup fp = none) (gp : ℕ) :
    (insert pid fp dict).lookup gp = if gp = fp then some pid else dict.lookup gp := by
  rw [insert, free]
  grind

/-! ## Streams -/

/-- The two ends of a new pipe. -/
def ends (r w id : ℕ) (fd i : ℕ) (write : Bool) : Prop := i = id ∧ fd = if write then w else r

def noEnds (_fd _id : ℕ) (_write : Bool) : Prop := False

/-- The ends of pipes a process holds are those of its open streams, and `extra`. -/
structure Streams (extra : ℕ → ℕ → Bool → Prop) (fds : FdTable (Handle ρ)) (files : ℕ → Option File)
    (dict : Dict) : Prop where
  held : ∀ fd id write, fds.get fd = some (.pipe id write) → extra fd id write ∨
    ∃ fp file, files fp = some file ∧ file.fd = fd ∧ file.pipe = id ∧ file.write = write
  stream : ∀ fp file, files fp = some file → fds.get file.fd = some (.pipe file.pipe file.write)
  foreign : ∀ fp file, files fp = some file → ∀ fd write, ¬ extra fd file.pipe write
  apart : ∀ fp gp file other, files fp = some file → files gp = some other →
    file.pipe = other.pipe → fp = gp
  known : ∀ fp, (dict.lookup fp).isSome ↔ (files fp).isSome

section

variable {extra : ℕ → ℕ → Bool → Prop} {fds : FdTable (Handle ρ)} {files : ℕ → Option File} {dict : Dict}

theorem Streams.unlisted (streams : Streams extra fds files dict) {fp : ℕ} (free : files fp = none) :
    dict.lookup fp = none := by
  rw [← Option.isNone_iff_eq_none, ← Option.not_isSome, Bool.not_eq_true', Bool.eq_false_iff, Ne,
    streams.known fp, free]
  exact Bool.false_ne_true

/-- `fclose` and `erase`. -/
theorem Streams.close (streams : Streams extra fds files dict) {fp : ℕ} {file : File}
    (here : files fp = some file) :
    Streams extra (fds.close file.fd) (Function.update files fp none) (erase fp dict) := by
  constructor
  · intro fd id write holds
    rw [FdTable.get_close] at holds
    split_ifs at holds with closed
    obtain extra_ | ⟨gp, file', open_, rfl, rfl, rfl⟩ := streams.held fd id write holds
    · exact .inl extra_
    · refine .inr ⟨gp, file', ?_, rfl, rfl, rfl⟩
      rw [Function.update_of_ne, open_]
      rintro rfl
      cases here.symm.trans open_
      exact closed rfl
  · intro gp file' open_
    obtain ⟨different, open_⟩ := update_none_eq_some.mp open_
    rw [FdTable.get_close, if_neg, streams.stream gp file' open_]
    -- the closed descriptor belongs to another pipe
    intro same
    have target := streams.stream gp file' open_
    rw [same, streams.stream fp file here] at target
    exact different (streams.apart gp fp file' file open_ here
      (Handle.pipe.inj (Option.some.inj target)).1.symm)
  · intro gp file' open_
    exact streams.foreign gp file' (update_none_eq_some.mp open_).2
  · intro gp gp' file' file'' open_ open' same
    exact streams.apart gp gp' file' file'' (update_none_eq_some.mp open_).2
      (update_none_eq_some.mp open').2 same
  · intro gp
    rw [lookup_erase, Function.update_apply]
    split_ifs
    · exact Iff.rfl
    · exact streams.known gp

/-- `pipe`, whose ends no stream has. -/
theorem Streams.pipe (streams : Streams noEnds fds files dict) {id r w : ℕ}
    {next : FdTable (Handle ρ)} (below : ∀ fp file, files fp = some file → file.pipe < id)
    (opened : fds.pipe (.pipe id false) (.pipe id true) = ((r, w), next)) :
    Streams (ends r w id) next files dict ∧ r ≠ w ∧ next.get r = some (.pipe id false) ∧
      next.get w = some (.pipe id true) := by
  obtain ⟨freeR, freeW, distinct, -, table⟩ := fds.pipe_spec _ _ opened
  have reader : next.get r = some (.pipe id false) := by rw [table, if_neg distinct, if_pos rfl]
  have writer : next.get w = some (.pipe id true) := by rw [table, if_pos rfl]
  refine ⟨⟨fun fd i write holds => ?_, fun fp file here => ?_, fun fp file here fd write => ?_,
    streams.apart, streams.known⟩, distinct, reader, writer⟩
  · rw [table] at holds
    split_ifs at holds with atW atR
    · cases holds
      exact .inl ⟨rfl, atW⟩
    · cases holds
      exact .inl ⟨rfl, atR⟩
    · exact .inr ((streams.held fd i write holds).resolve_left not_false)
  · have target := streams.stream fp file here
    rw [table, if_neg, if_neg, target]
    · rintro same
      rw [same, freeR] at target
      nomatch target
    · rintro same
      rw [same, freeW] at target
      nomatch target
  · rintro ⟨same, -⟩
    have := below fp file here
    omega

/-- `fdopen`, `close` and `insert`. -/
theorem Streams.fdopen {r w id : ℕ} (streams : Streams (ends r w id) fds files dict)
    (distinct : r ≠ w) (reader : fds.get r = some (.pipe id false))
    (writer : fds.get w = some (.pipe id true)) {fp : ℕ} (free : files fp = none) (write : Bool)
    (child : Option ℕ) (pid : ℤ) :
    Streams noEnds (fds.close (if write then r else w))
      (Function.update files fp (some ⟨if write then w else r, write, [], id, child⟩))
      (insert pid fp dict) := by
  have unlisted := streams.unlisted free
  have kept {gp : ℕ} {file : File} (here : files gp = some file) : gp ≠ fp := by
    rintro rfl
    rw [free] at here
    nomatch here
  have own {gp : ℕ} {file : File} (here : files gp = some file) : file.pipe ≠ id := fun same =>
    streams.foreign gp file here (if file.write then w else r) file.write ⟨same, rfl⟩
  constructor
  · intro fd i mode holds
    by_cases closed : fd = if write then r else w
    · rw [FdTable.get_close, if_pos closed] at holds
      nomatch holds
    rw [FdTable.get_close, if_neg closed] at holds
    obtain ⟨rfl, place⟩ | ⟨gp, file, open_, rest⟩ := streams.held fd i mode holds
    · -- the end that is left is the one the stream is for
      obtain rfl : mode = write := by
        cases mode <;> cases write <;> first | rfl | exact absurd place closed
      exact .inr ⟨fp, _, Function.update_self .., place.symm, rfl, rfl⟩
    · exact .inr ⟨gp, file, by rw [Function.update_of_ne (kept open_), open_], rest⟩
  · intro gp file open_
    obtain ⟨-, ⟨⟩⟩ | ⟨-, open_⟩ := update_eq_some.mp open_
    · rw [FdTable.get_close]
      cases write
      · rw [if_neg (by simpa using distinct)]
        exact reader
      · rw [if_neg (by simpa using distinct.symm)]
        exact writer
    · rw [FdTable.get_close, if_neg, streams.stream gp file open_]
      intro same
      have target := streams.stream gp file open_
      rw [same] at target
      apply own open_
      cases write
      · exact (Handle.pipe.inj (Option.some.inj (writer.symm.trans target))).1.symm
      · exact (Handle.pipe.inj (Option.some.inj (reader.symm.trans target))).1.symm
  · exact fun _ _ _ _ _ => not_false
  · intro gp gp' file file' open_ open' same
    rcases update_eq_some.mp open_ with ⟨here, new⟩ | ⟨-, old⟩ <;>
      rcases update_eq_some.mp open' with ⟨here', new'⟩ | ⟨-, old'⟩
    · exact here.trans here'.symm
    · cases new
      exact absurd same.symm (own old')
    · cases new'
      exact absurd same (own old)
    · exact streams.apart gp gp' file file' old old' same
  · intro gp
    rw [lookup_insert unlisted]
    by_cases same : gp = fp
    · rw [if_pos same, same, Function.update_self]
      exact iff_of_true rfl rfl
    · rw [if_neg same, Function.update_of_ne same]
      exact streams.known gp

end

end SystemProgramming.Popen
