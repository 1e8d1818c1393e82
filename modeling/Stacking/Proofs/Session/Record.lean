import Stacking.Proofs.Session.Invariant

/-!
# What a session knows of one document

A session keeps its knowledge in four tables. Seen from one document they are a `Record`: its text,
its findings, the version that could not be analysed, and whether it was opened again. Every update
of a session changes the record of one document at most, and this file says how.
-/

namespace Stacking

/-- What a session knows of one document. -/
structure Record where
  document : Option OpenDocument
  result : Option Analysis
  failed : Option Int
  reopened : Bool

namespace Record

/-- Nothing is known of a document that is not open. -/
def closed : Record := ⟨none, none, none, false⟩

/-- The document is opened, maybe again. -/
def enrol (text : Text) (version : Int) (k : Record) : Record :=
  ⟨some ⟨text, version⟩, k.result, none, k.result.isSome || k.reopened⟩

/-- Another text takes the place of the document. -/
def place (text : Text) (version : Int) (k : Record) : Record :=
  { k with document := some ⟨text, version⟩ }

/-- A version could not be analysed. -/
def refuse (version : Int) (k : Record) : Record := { k with failed := some version }

/-- Findings are taken over. -/
def accept (result : Analysis) (k : Record) : Record :=
  { k with result := some result, failed := none, reopened := false }

/-- Whether the document is open and its latest text has not been analysed. -/
def needsAnalysis (k : Record) : Bool :=
  match k.document with
  | none => false
  | some d =>
    if k.failed = some d.version then false
    else if k.reopened then true
    else
      match k.result with
      | none => true
      | some r => r.version < d.version

theorem needsAnalysis_refuse {k : Record} {d : OpenDocument} (hd : k.document = some d) :
    (k.refuse d.version).needsAnalysis = false := by
  simp [needsAnalysis, refuse, hd]

theorem needsAnalysis_accept {k : Record} {d : OpenDocument} {r : Analysis}
    (hd : k.document = some d) (hv : r.version = d.version) :
    (k.accept r).needsAnalysis = false := by
  simp [needsAnalysis, accept, hd, hv]

end Record

namespace Session

variable {τ : Type}

/-- What the session knows of a document. -/
def record (s : Session τ) (uri : String) : Record :=
  ⟨s.documents.get? uri, s.results.get? uri, s.failed.get? uri, s.reopened.contains uri⟩

theorem needsAnalysis_eq_record (s : Session τ) (uri : String) :
    s.needsAnalysis uri = (s.record uri).needsAnalysis := rfl

/-! ## How updates change records -/

@[simp] theorem record_drop (key : BatchKey) (s : Session τ) (uri : String) :
    (s.drop key).record uri = s.record uri := by
  rw [drop_eq]
  rfl

theorem record_place (s : Session τ) (uri : String) (text : Text) (version : Int) (u : String) :
    (s.place uri text version).record u =
      if uri = u then (s.record u).place text version else s.record u := by
  unfold record place
  simp only [Table.get?_put]
  by_cases h : uri = u
  · simp only [if_pos h]
    rfl
  · simp only [if_neg h]

theorem record_enrol (s : Session τ) (uri : String) (text : Text) (version : Int) (u : String) :
    (s.enrol uri text version).record u =
      if uri = u then (s.record u).enrol text version else s.record u := by
  -- the mark of a document opened again, looked up
  have hmark : (s.enrol uri text version).reopened.contains u =
      (if uri = u then (s.results.get? u).isSome || s.reopened.contains u
        else s.reopened.contains u) := by
    unfold enrol
    simp only [Table.contains_eq_isSome]
    by_cases h : uri = u
    · subst h
      cases hr : (s.results.get? uri).isSome <;> cases hc : s.reopened.contains uri <;> simp_all
    · have hu : u ≠ uri := fun e => h e.symm
      rw [if_neg h]
      split
      · rw [List.contains_cons, beq_false_of_ne hu, Bool.false_or]
      · rfl
  unfold record
  rw [hmark]
  simp only [enrol, place, Table.get?_put, Table.get?_erase]
  by_cases h : uri = u
  · simp only [if_pos h]
    rfl
  · simp only [if_neg h]

theorem record_refuse (s : Session τ) (uri : String) (version : Int) (u : String) :
    (s.refuse uri version).record u =
      if uri = u then (s.record u).refuse version else s.record u := by
  unfold record refuse
  simp only [Table.get?_put]
  by_cases h : uri = u
  · simp only [if_pos h]
    rfl
  · simp only [if_neg h]

theorem contains_filter_ne (us : List String) (uri u : String) :
    (us.filter (· ≠ uri)).contains u = if uri = u then false else us.contains u := by
  by_cases h : uri = u
  · simp [h]
  · have hu : u ≠ uri := fun e => h e.symm
    rw [if_neg h, Bool.eq_iff_iff]
    simp [hu]

theorem record_accept (s : Session τ) (r : Analysis) (u : String) :
    (s.accept r).record u = if r.uri = u then (s.record u).accept r else s.record u := by
  unfold record accept
  simp only [Table.get?_put, Table.get?_erase, contains_filter_ne]
  by_cases h : r.uri = u
  · simp only [if_pos h]
    rfl
  · simp only [if_neg h]

theorem record_forget (s : Session τ) (uri u : String) :
    (s.forget uri).record u = if uri = u then .closed else s.record u := by
  rw [forget, record_drop]
  unfold record dropDocument
  simp only [Table.get?_erase, contains_filter_ne]
  by_cases h : uri = u
  · simp only [if_pos h]
    rfl
  · simp only [if_neg h]

end Session
end Stacking
