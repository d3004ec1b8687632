import Gherkin.Proofs.Composition

/-!
# Rows of tables

The rows of a table are those of its lines, with every cell where its fragment is, and nothing else
that stands in the rule of a table has to do with them. A block of examples splits the rows of its
first table into a header and the rest, and puts neither in where there is no row.

## Main results

* `Gherkin.Examples.MadeOf.exists_rows` : the header and the other rows of a block of examples.
* `Gherkin.Assembly.rows_of_tables` : what becomes of tables and of blocks of examples.
-/

namespace Gherkin

open Forest

/-- The first row of the table in a block of examples is its header, and the other rows, be it none,
are its body. Without a first row it has neither. -/
theorem Examples.MadeOf.exists_rows {e : Examples} {ts : Forest} (he : e.MadeOf ts) :
    ∃ inner, first? .examples ts = some inner ∧
      (inner.tableRows = [] → e.header = none ∧ e.body = none) ∧
      ∀ r rs, inner.tableRows = r :: rs → e.header = some r ∧ e.body = some rs := by
  obtain ⟨inner, hfirst, -, -, hrows, hheader, hbody⟩ := he.inner
  refine ⟨inner, hfirst, fun h => ⟨hheader.mpr h, hbody.mpr h⟩, fun r rs h => ?_⟩
  have hne : inner.tableRows ≠ [] := h ▸ List.cons_ne_nil r rs
  obtain ⟨header, hsome⟩ := Option.ne_none_iff_exists'.mp (mt hheader.mp hne)
  obtain ⟨body, hsome'⟩ := Option.ne_none_iff_exists'.mp (mt hbody.mp hne)
  rw [hsome, hsome', h] at hrows
  obtain ⟨rfl, rfl⟩ := List.cons_eq_cons.mp hrows
  exact ⟨hsome, hsome'⟩

namespace Assembly

/-- **Tables.** A table that is left after any calls has the rows of its lines. A block of examples
is made of what stands in it, and its header and its body are the first row of its table and the
others. -/
theorem rows_of_tables :
    (∀ cs v, ((ofCalls cs).leave .dataTable).1 = .ok v →
      ∃ t, v = .dataTable t ∧ t.rows = (Nesting.ofCalls cs).here.rows) ∧
    (∀ cs v, ((ofCalls cs).leave .examplesTable).1 = .ok v →
      v = .rows (Nesting.ofCalls cs).here.rows) ∧
    ∀ cs v, ((ofCalls cs).leave .examplesDefinition).1 = .ok v →
      ∃ e, v = .examples e ∧ e.MadeOf (Nesting.ofCalls cs).here ∧
        ∃ inner, first? .examples (Nesting.ofCalls cs).here = some inner ∧
          (inner.tableRows = [] → e.header = none ∧ e.body = none) ∧
          ∀ r rs, inner.tableRows = r :: rs → e.header = some r ∧ e.body = some rs := by
  refine ⟨fun cs v hv => gives_dataTable.of_leave .dataTable hv, ?_, ?_⟩
  · intro cs v hv
    obtain ⟨rs, rfl, rfl⟩ := gives_examplesTable.of_leave .examplesTable hv
    rfl
  · intro cs v hv
    obtain ⟨e, rfl, he⟩ := gives_examples.of_leave .examplesDefinition hv
    exact ⟨e, rfl, he, he.exists_rows⟩

/-- The contents of a table with two rows, and with a line and a rule that are no rows between
them. The cells of the second row are at the column of their line. -/
def tableContents : List Event :=
  [.token { kind := .tableRow, location := ⟨4, 3⟩, items := [⟨5, "a"⟩, ⟨9, "b"⟩] },
    .token { kind := .stepLine, location := ⟨5, 1⟩ },
    .enter .dataTable, .token { kind := .tableRow, location := ⟨6, 1⟩ }, .leave .dataTable,
    .token { kind := .tableRow, location := ⟨7, 3⟩, items := [⟨0, "c"⟩, ⟨0, ""⟩] }]

/-- The rows of that table. -/
def tableContentsRows : List Row :=
  [⟨⟨4, 3⟩, [⟨⟨4, 5⟩, "a"⟩, ⟨⟨4, 9⟩, "b"⟩]⟩, ⟨⟨7, 3⟩, [⟨⟨7, 3⟩, "c"⟩, ⟨⟨7, 3⟩, ""⟩]⟩]

/-- The events up to the end of a block of examples with that table, and with a second table. -/
def eventsOfExamples : List Event :=
  [.enter .examplesDefinition, .enter .examples,
    .token { kind := .examplesLine, location := ⟨3, 1⟩ }, .enter .examplesTable] ++
  tableContents ++
  [.leave .examplesTable, .enter .examplesTable, .leave .examplesTable, .leave .examples]

theorem rows_of_tableContents :
    let table := (Event.enter .dataTable :: tableContents).map Call.event
    let rows := (Event.enter .examplesTable :: tableContents).map Call.event
    let examples := eventsOfExamples.map Call.event
    let e : Examples :=
      ⟨[], ⟨3, 1⟩, "", "", "", tableContentsRows.head?, some tableContentsRows.tail⟩
    ((ofCalls table).leave .dataTable).1 = .ok (.dataTable ⟨tableContentsRows⟩) ∧
      (∃ t, Value.dataTable ⟨tableContentsRows⟩ = .dataTable t ∧
        t.rows = (Nesting.ofCalls table).here.rows) ∧
      Value.rows tableContentsRows = .rows (Nesting.ofCalls rows).here.rows ∧
      ((ofCalls examples).leave .examplesDefinition).1 = .ok (.examples e) ∧
      ∃ f, Value.examples e = .examples f ∧ f.MadeOf (Nesting.ofCalls examples).here ∧
        ∃ inner, first? .examples (Nesting.ofCalls examples).here = some inner ∧
          (inner.tableRows = [] → f.header = none ∧ f.body = none) ∧
          ∀ r rs, inner.tableRows = r :: rs → f.header = some r ∧ f.body = some rs := by
  intro table rows examples e
  have htable : ((ofCalls table).leave .dataTable).1 = .ok (.dataTable ⟨tableContentsRows⟩) := by
    rfl
  have hrows : ((ofCalls rows).leave .examplesTable).1 = .ok (.rows tableContentsRows) := by rfl
  have he : ((ofCalls examples).leave .examplesDefinition).1 = .ok (.examples e) := by rfl
  exact ⟨htable, rows_of_tables.1 _ _ htable, rows_of_tables.2.1 _ _ hrows, he,
    rows_of_tables.2.2 _ _ he⟩

end Assembly

end Gherkin
