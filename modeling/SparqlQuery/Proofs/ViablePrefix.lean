import SparqlQuery.Proofs.ClosingWords
import SparqlQuery.Proofs.DriverDerivation
import SparqlQuery.Proofs.DriverReads
import SparqlQuery.Proofs.QueryFollow

namespace SparqlQuery

/-- Terms that a query may still have before it, up to its end: what follows each production is
allowed there, and all can be closed by their words. -/
structure Pending (terms : List Term) : Prop where
  fits : completedTable.Fits (fun name => (queryFollow name).Has) endOfInput terms
  closable : closable terms = true

namespace Pending

variable {terms : List Term}

theorem start : Pending [.production startProduction] :=
  ⟨startProduction_fits, by decide⟩

/-- The word of pending terms is derived by the query table, not only by its grammar. -/
theorem derives (h : Pending terms) : ∃ trees,
    Derives queryTable.expands terms ((wordOf terms).map Token.sample) trees [] ∧
      completedTable.Starts endOfInput terms
        (lookahead ((wordOf terms).map Token.sample)) := by
  have hend : lookahead [] ≠ numberKey := by decide
  obtain ⟨trees, hword⟩ := derives_wordOf h.closable hend
  rw [List.append_nil] at hword
  obtain ⟨hcompleted, hstart⟩ := hword.completed (fun _ _ _ hname => hname.1) h.fits
  refine ⟨trees, hcompleted.mono ?_, hstart⟩
  rintro production key inner ⟨⟨_, hkey⟩, hname⟩
  exact expands_queryTable_of_completed hname fun hlacks => hkey hlacks.2

theorem tail {key : String} (h : Pending (.terminal key :: terms)) : Pending terms :=
  ⟨h.fits, h.closable⟩

/-- Entering a production leaves everything pending. -/
theorem enter {name key : String} {inner : List Term} (h : Pending (.production name :: terms))
    (hname : queryTable.expands name key inner) : Pending (inner ++ terms) := by
  obtain ⟨hfollow, hfits⟩ := h.fits
  have hclosable := h.closable
  simp only [SparqlQuery.closable, Bool.and_eq_true, bne_iff_ne] at hclosable
  obtain ⟨⟨_, hword⟩, hterms⟩ := hclosable
  obtain ⟨_, _, hstart⟩ := (⟨hfits, hterms⟩ : Pending terms).derives
  have hproduces : completedTable.produces name inner :=
    produces_completedTable_iff.mpr ⟨key, hname⟩
  obtain ⟨group, hgroup, _, _, rfl⟩ := queryTable_listedBy.mp hname
  have hinner := List.all_eq_true.mp queryGroups_closable group hgroup
  exact ⟨.append ⟨_, hstart⟩
    (fun key hkey => completedTable_follows.closed _ _ _ hproduces (hfollow key hkey)) hfits,
    closable_append hinner hterms hword⟩

end Pending

def Frame.rest : Frame → List Term
  | ⟨name, none⟩ => [.production name]
  | ⟨_, some terms⟩ => terms

def pendingTerms (stack : List Frame) : List Term :=
  stack.flatMap Frame.rest

namespace Table

theorem completes_of_derives {t : Table} (stack : List Frame) {tokens : List Token}
    {trees : List ParseTree} (h : Derives t.expands (pendingTerms stack) tokens trees []) :
    ∃ events, t.Completes stack tokens events := by
  induction stack generalizing tokens trees with
  | nil =>
    cases h
    exact ⟨[], .done⟩
  | cons frame below ih =>
    obtain ⟨front, back, middle, rfl, hframe, hbelow⟩ := Derives.split h
    obtain ⟨events, hevents⟩ := ih hbelow
    match frame, hframe with
    | ⟨name, none⟩, hframe =>
      obtain ⟨inner, children, rfl, _, _⟩ := hframe.production_tree
      exact ⟨_, .unopened hframe hevents⟩
    | ⟨name, some terms⟩, hframe => exact ⟨_, .opened hframe hevents⟩

/-- A pending stack can be completed as long as nothing says how. -/
theorem completes_of_pending {stack : List Frame} (hp : Pending (pendingTerms stack)) :
    ∃ w events, queryTable.Completes stack w events := by
  obtain ⟨trees, hd, _⟩ := hp.derives
  exact ⟨_, completes_of_derives stack hd⟩

variable {σ : Type} [Sink σ] {start : String} {state after : ParseState σ}

theorem Moves.pending (h : queryTable.Moves state after)
    (hp : Pending (pendingTerms state.stack)) : Pending (pendingTerms after.stack) := by
  cases h with
  | enter _ hname => exact hp.enter hname
  | push => exact hp
  | read => exact hp.tail
  | exit => exact hp

/-- What a run reads can be completed, from the state that it begins in. -/
theorem Runs.completes {read : List Token} {outcome : Outcome} {sink : σ}
    (h : queryTable.Runs start state read outcome sink)
    (hp : Pending (pendingTerms state.stack)) :
    ∃ w events, queryTable.Completes state.stack (read ++ w) events := by
  induction h with
  | stop => exact completes_of_pending hp
  | @keep state after read _ _ hm hkeep hafter ih =>
    cases read with
    | nil => exact completes_of_pending hp
    | cons token read =>
      obtain ⟨w, events, hc⟩ := ih (hm.pending hp)
      obtain ⟨rest, hrest⟩ := hafter.read_prefix
      have hkey : lookahead (token :: read ++ w) = lookahead state.tokens := by
        rw [hkeep, hrest]
        rfl
      obtain ⟨before, hbefore, _⟩ := (hm.keep_other hkeep hkey).completes hc
      exact ⟨w, _, hbefore⟩
  | @read state after token read _ _ hm hread _ ih =>
    obtain ⟨w, events, hc⟩ := ih (hm.pending hp)
    obtain ⟨before, hbefore, _⟩ := (hm.read_other hread (read ++ w)).completes hc
    exact ⟨w, _, hbefore⟩

theorem accepted_of_completes {tokens : List Token} {events : List Event}
    (h : queryTable.Completes [⟨startProduction, none⟩] tokens events) (sink : σ) :
    (queryTable.drive startProduction tokens sink).1 = .accepted := by
  have hne : tokens ≠ [] := by
    rintro rfl
    cases h with
    | unopened hname _ =>
      obtain ⟨inner, _, _, hexpands, _⟩ := hname.production_tree
      have hnone : RuleGroup.select queryGroups startProduction endOfInput = none := by
        decide
      cases (queryTable_listedBy.expansion?_eq _ _ |>.trans hnone).symm.trans hexpands
  rw [drive_of_ne_nil _ _ hne, run_completes h]

/-- What the driver reads of some tokens, up to a failure or to their end, begins a query, and
one token more begins none. -/
theorem drive_query_reads_viable (tokens : List Token) :
    ∃ n ≤ tokens.length,
      (queryTable.drive startProduction tokens ({} : Collector)).2.events.toList.filterMap
        Event.reading? = (tokens.take n).map Token.reading ∧
      (∃ w, (queryTable.drive startProduction (tokens.take n ++ w) ({} : Collector)).1 =
        .accepted) ∧
      (n < tokens.length → ∀ w,
        (queryTable.drive startProduction (tokens.take (n + 1) ++ w) ({} : Collector)).1 ≠
          .accepted) := by
  by_cases hne : tokens = []
  · subst hne
    have hstart : Pending (pendingTerms [⟨startProduction, none⟩]) := Pending.start
    obtain ⟨w, events, hc⟩ := completes_of_pending hstart
    exact ⟨0, Nat.le_refl 0, rfl, ⟨w, accepted_of_completes hc _⟩, by simp⟩
  · obtain ⟨read, hruns⟩ := runs_run queryTable startProduction
      ⟨[⟨startProduction, none⟩], tokens, ({} : Collector), 0⟩
    obtain ⟨rest, hrest⟩ := hruns.read_prefix
    obtain ⟨events, hsink, hevents⟩ := hruns.readings
    obtain ⟨w, _, hc⟩ := hruns.completes Pending.start
    obtain rfl : tokens = read ++ rest := hrest
    refine ⟨read.length, by simp, ?_, ⟨w, ?_⟩, ?_⟩
    · rw [drive_of_ne_nil _ _ hne, hsink, Collector.receiveAll_events]
      simpa using hevents
    · rw [List.take_left]
      exact accepted_of_completes hc _
    · intro hlength other
      cases rest with
      | nil => simp at hlength
      | cons token rest =>
        have htake : (read ++ token :: rest).take (read.length + 1) ++ other =
            read ++ token :: other := by simp [List.take_length_add_append]
        rw [htake, drive_of_ne_nil _ _ (by simp)]
        exact hruns.refuses rfl other

end Table

end SparqlQuery
