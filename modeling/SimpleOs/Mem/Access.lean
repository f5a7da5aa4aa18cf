import SimpleOs.Mem.Fault

/-!
# Accesses outside of a region

`__read` and `__write` take the start of a region and add the offset. Neither looks at the
end of the region, or whether there is one: an access to nowhere goes to `pg_getpage`, which
gives its page a frame. Only `__write` turns something away, and for other reasons.
-/

namespace SimpleOs.Mem

variable {b : Build} {P : Type} [DecidableEq P]

/-- The accesses to a region. -/
inductive Access where
  | read
  | write (vmaid : Int) (value : Byte)

/-- The offset is within the region that was allocated under `rgid`. Freeing a region leaves an
empty one. -/
def Mm.Inside (mm : Mm b) (rgid : Int) (offset : b.Word) : Prop :=
  ∃ i : Fin pagingMaxSymtblSz, rgid = i ∧
    (mm.symrgtbl i).rgStart.toNat + offset.toNat < (mm.symrgtbl i).rgEnd.toNat

/-- What `__write` turns away: any write of a process without areas, and a write by a number that
`get_symrg_byid` refuses. `__read` turns nothing away. -/
def Mm.Refuses (mm : Mm b) (rgid : Int) : Access → Prop
  | .read => False
  | .write vmaid _ => mm.mmap = [] ∨
      ((rgid < 0 ∨ pagingMaxSymtblSz < rgid) ∧ ∃ vma ∈ mm.mmap, vmaid ≤ vma.vmId)

namespace Machine

section Accesses

variable {m m' : Machine b P} {p : P} {rgid ret : Int} {offset overlay : b.Word}
  {junk : Nat → Byte} {kind : Access}

def access (m : Machine b P) (caller : P) (rgid : Int) (offset overlay : b.Word)
    (junk : Nat → Byte) : Access → Option (Machine b P × Int)
  | .read => m.read caller rgid offset overlay junk
  | .write vmaid value => m.write caller vmaid rgid offset overlay value junk

/-- The access returns `-1` and has no effect. -/
def Rejected (m : Machine b P) (p : P) (rgid : Int) (offset overlay : b.Word) (junk : Nat → Byte)
    (kind : Access) : Prop :=
  ∃ m', m.access p rgid offset overlay junk kind = some (m', -1) ∧ Intact p m m'

theorem read_ret (done : m.read p rgid offset overlay junk = some (m', ret)) : ret = 0 := by
  rw [read] at done
  split at done
  next => cases done
  next =>
    obtain ⟨_, -, same⟩ := Option.map_eq_some_iff.mp done
    exact (Prod.mk.inj same).2.symm

/-- `__write` returns `-1` where one of its two lookups gives `NULL` and neither faults. -/
theorem write_refused_iff {vmaid : Int} {value : Byte} :
    (∃ m', m.write p vmaid rgid offset overlay value junk = some (m', -1)) ↔
      getVmaByNum (m.mm p).mmap vmaid = some none ∨
        (m.symrgStart p rgid overlay = none ∧ getVmaByNum (m.mm p).mmap vmaid ≠ none) := by
  cases area : getVmaByNum (m.mm p).mmap vmaid with
  | none => simp [write, area]
  | some place =>
      cases region : m.symrgStart p rgid overlay with
      | none => simp [write, area, region]
      | some rgStart =>
          cases place with
          | none => simp [write, area, region]
          | some i =>
              refine iff_of_false ?_ (by simp)
              rintro ⟨m', done⟩
              simp only [write, area, region] at done
              obtain ⟨_, -, same⟩ := Option.map_eq_some_iff.mp done
              exact absurd (Prod.mk.inj same).2 (by decide)

/-- A write that is turned away has no effect. -/
theorem write_of_neg {vmaid : Int} {value : Byte}
    (done : m.write p vmaid rgid offset overlay value junk = some (m', -1)) : m' = m := by
  rw [write] at done
  split at done
  next => cases done
  next => exact (Prod.mk.inj (Option.some.inj done)).1.symm
  next => exact (Prod.mk.inj (Option.some.inj done)).1.symm
  next =>
    obtain ⟨_, -, same⟩ := Option.map_eq_some_iff.mp done
    exact absurd (Prod.mk.inj same).2 (by decide)

/-- What is rejected is what the process refuses. -/
theorem rejected_iff : m.Rejected p rgid offset overlay junk kind ↔ (m.mm p).Refuses rgid kind := by
  cases kind with
  | read =>
      refine iff_of_false ?_ id
      rintro ⟨m', done, -⟩
      exact absurd (read_ret done) (by decide)
  | write vmaid value =>
      have silent : m.Rejected p rgid offset overlay junk (.write vmaid value) ↔
          ∃ m', m.write p vmaid rgid offset overlay value junk = some (m', -1) := by
        constructor
        · rintro ⟨m', done, -⟩
          exact ⟨m', done⟩
        · rintro ⟨m', done⟩
          obtain rfl := write_of_neg done
          exact ⟨m', done, ⟨fun _ => rfl, rfl, rfl, rfl, rfl, rfl⟩⟩
      rw [silent, write_refused_iff, getVmaByNum_eq_null, symrgStart_eq_none, Ne,
        getVmaByNum_eq_none, Mm.Refuses]
      by_cases empty : (m.mm p).mmap = []
      · simp [empty]
      · simp [empty]

/-- `__read` and `__write` reject an access outside of its region exactly where it is a write
that is turned away for other reasons. -/
theorem outside_rejected_iff (m : Machine b P) (p : P) (rgid : Int) (offset overlay : b.Word)
    (junk : Nat → Byte) (kind : Access) :
    (¬ (m.mm p).Inside rgid offset → m.Rejected p rgid offset overlay junk kind) ↔
      (m.mm p).Inside rgid offset ∨ (m.mm p).Refuses rgid kind := by
  rw [rejected_iff, or_iff_not_imp_left]

/-- Where RAM is not full, a page that is touched gets a frame. -/
theorem pgGetpage_takes_frame {pgn fpn : b.Word} {rest : List b.Word} {result : Option b.Word}
    (inTable : b.outOfTable pgn = false)
    (absent : b.pagePresent ((m.mm p).pteGetEntry pgn) = false)
    (free : m.mram.freeFpList = fpn :: rest)
    (done : m.pgGetpage p pgn junk = some (m', result)) :
    m'.mram.freeFpList = rest ∧ b.online ((m'.mm p).pgd (b.index pgn)) = true := by
  have full : m.mram.getFreefp ≠ none := by
    rw [Ne, Memphy.getFreefp_eq_none, free]
    exact List.cons_ne_nil _ _
  obtain ⟨present, -, -⟩ | ⟨-, ⟨failed, -⟩ | ⟨taken, tgtfpn, took, rfl, -⟩⟩ := pgGetpage_cases done
  · rw [absent] at present
    cases present
  · obtain ⟨_, _, -, -, found⟩ | ⟨noFrame, -⟩ := takeFrame_cases failed
    · cases found
    · exact absurd noFrame full
  · obtain ⟨_, mram, popped, rfl, -⟩ | ⟨noFrame, -⟩ := takeFrame_cases took
    · have left := (Memphy.getFreefp_cases popped).1
      rw [free] at left
      constructor
      · exact (freeFpList_fillFrame _ _ _ _).trans (List.cons.inj left).2.symm
      · rw [pgd_mapPage inTable, if_pos rfl]
        exact online_fpnEntry _ _
    · exact absurd noFrame full

/-- An access that is let through to a page without a frame takes one, whether or not it is
inside of its region. -/
theorem access_takes_frame {rgStart fpn : b.Word} {rest : List b.Word}
    (region : m.symrgStart p rgid overlay = some rgStart)
    (absent : b.pagePresent ((m.mm p).pteGetEntry (b.pagingPgn (rgStart + offset))) = false)
    (free : m.mram.freeFpList = fpn :: rest) (passed : ¬ (m.mm p).Refuses rgid kind)
    (done : m.access p rgid offset overlay junk kind = some (m', ret)) :
    ret = 0 ∧ m'.mram.freeFpList = rest ∧
      b.online ((m'.mm p).pgd (b.index (b.pagingPgn (rgStart + offset)))) = true := by
  have inTable := inTable_pagingPgn (rgStart + offset)
  cases kind with
  | read =>
      obtain ⟨start, data, found, got⟩ := read_cases done
      obtain rfl := Option.some.inj (region.symm.trans found)
      obtain ⟨result, paged, -⟩ := pgGetval_cases got
      exact ⟨read_ret done, pgGetpage_takes_frame inTable absent free paged⟩
  | write vmaid value =>
      simp only [access, write, region] at done
      cases area : getVmaByNum (m.mm p).mmap vmaid with
      | none => simp [area] at done
      | some place =>
          cases place with
          | none => exact absurd (.inl (getVmaByNum_eq_null.mp area)) passed
          | some i =>
              rw [area] at done
              obtain ⟨⟨after, code⟩, set, same⟩ := Option.map_eq_some_iff.mp done
              obtain ⟨rfl, rfl⟩ := Prod.mk.inj same
              refine ⟨rfl, ?_⟩
              obtain ⟨failed, -⟩ | ⟨paged, f, got, -, rfl⟩ := pgSetval_cases set
              · exact pgGetpage_takes_frame inTable absent free failed
              · obtain ⟨left, online⟩ := pgGetpage_takes_frame inTable absent free got
                refine ⟨(Memphy.freeFpList_store _ _ _).trans left, ?_⟩
                rw [mm_setMm_self, Mm.pteSetEntry, pgd_setEntryBy inTable, Function.update_self,
                  online_dirtyEntry, pteGetEntry_eq inTable]
                exact online

end Accesses

/-- A process that has allocated nothing reads from region 0, and gets a frame for it. -/
theorem unallocated_read_served :
    ¬ ∀ (m : Machine .mm32 Unit) (rgid : Int) (offset overlay : Build.mm32.Word)
      (junk : Nat → Byte) (kind : Access), ¬ (m.mm ()).Inside rgid offset →
        m.Rejected () rgid offset overlay junk kind := by
  intro all
  have outside : ¬ (Mm.init .mm32).Inside 0 0 := by
    rintro ⟨i, -, below⟩
    exact absurd below (Nat.not_lt_zero _)
  obtain ⟨m', done, intact⟩ := all (boot (.init .mm32 512 true) (.init .mm32 512 true)) 0 0 0
    (fun _ => 0) .read outside
  obtain ⟨-, left, -⟩ := access_takes_frame rfl Build.mm32.pagePresent_zero rfl id done
  have before : m'.mram.freeFpList = [0, 1] := intact.ramFree
  rw [left] at before
  exact absurd (congrArg List.length before) (by decide)

end Machine

end SimpleOs.Mem
