import Mathlib.Logic.Relation
import Ruprizzle.Migrate.Checksums
import Ruprizzle.Migrate.ForeignKeys

namespace Ruprizzle

open Interleave

def Provider.dialect : Provider → Dialect
  | .postgres => .postgres
  | .sqlite => .sqlite
  | .mysql => .mysql

-- What a database of a schema holds.
structure Content where
  extensions : List String
  enums : IndexMap EnumName EnumDef
  models : IndexMap ModelName Model
  relations : List ResolvedRelation
  deriving DecidableEq

def Schema.content (s : Schema) : Content := ⟨s.datasource.extensions, s.enums, s.models, s.relations⟩

def Content.empty : Content := ⟨[], .empty, .empty, []⟩

-- The schemas a migration was diffed between.
structure Origin where
  prev : Schema
  schema : Schema
  deriving DecidableEq

-- A migration takes a database of the one schema to the other, and says nothing
-- of any other database.
def replay : Content → List Origin → Option Content
  | current, [] => some current
  | current, o :: rest =>
      if o.prev.content = current then replay o.schema.content rest else none

-- The directory as the commands rewrite it.
namespace Folder

def names (f : Folder) : List String := f.subdirs.map Subdir.name

def add (f : Folder) (dir : Subdir) : Option Folder :=
  if h : dir.name ∈ f.names then none
  else some ⟨f.subdirs ++ [dir], by
    rw [List.map_append, List.nodup_append]
    exact ⟨f.distinct, List.nodup_singleton _, fun a ha b hb heq =>
      h (List.mem_singleton.mp hb ▸ heq ▸ ha)⟩⟩

-- The directories that hold a migration are moved away.
def archived (f : Folder) : Folder :=
  ⟨f.subdirs.filter fun dir => !Migrator.hasUp dir,
    f.distinct.sublist (List.filter_sublist.map _)⟩

def ids (f : Folder) : List String :=
  (insertionSortBy (fun a b => compare a.name b.name) (f.subdirs.filter Migrator.hasUp)).map
    Subdir.name

end Folder

structure Project where
  site : Site
  snapshot : FileContent Schema
  origin : String → Option Origin

namespace Project

variable (c : Site.Setting)

-- The directory is created where it is missing.
def folder (p : Project) : Folder := p.site.folder.getD ⟨[], List.nodup_nil⟩

def history (p : Project) : List Origin := p.folder.ids.filterMap p.origin

def loadSnapshot (file : FileContent Schema) (schema : Schema) : Option Schema :=
  match file with
  | .absent => some schema.emptyLike
  | .content prev => some prev
  | _ => none

structure Draft where
  prev : Schema
  up : String
  down : String
  destructive : Bool

-- What migrate dev is about to write. It stops before that at an unreadable
-- snapshot, at destructive changes and at a panic of the planner.
def draft (host : Host) (p : Project) (schema : Schema) (acceptDataLoss : Bool) : Option Draft := do
  let prev ← loadSnapshot p.snapshot schema
  let destructive := (Diff.diff host prev schema).any fun change => change.destructive.isSome
  if destructive && !acceptDataLoss then none
  else
    let up ← upSql host schema.datasource.provider.dialect prev schema
    let down ← downSql host schema.datasource.provider.dialect prev schema
    return ⟨prev, up, down, destructive⟩

def migrationDir (id up down : String) (destructive : Bool) : Subdir :=
  ⟨id, .content up, .content down,
    .content ⟨id, Migrator.computeChecksum c.sha256 up, destructive, Migrator.CARGO_PKG_VERSION⟩⟩

def writeMigration (f : Folder) (id : String) (w : Draft) : Option Folder :=
  f.add (migrationDir c id w.up w.down w.destructive)

-- The baseline of a squash, from the schema of nothing.
def baseline (host : Host) (schema : Schema) : Option Draft := do
  let up ← upSql host schema.datasource.provider.dialect schema.emptyLike schema
  let down ← downSql host schema.datasource.provider.dialect schema.emptyLike schema
  return ⟨schema.emptyLike, up, down,
    Text.containsWord "drop table".toList (Migrator.lowercased down)⟩

def record (p : Project) (id : String) (prev schema : Schema) : String → Option Origin :=
  Function.update p.origin id (some ⟨prev, schema⟩)

-- What a command did to the migrations on disk and to the snapshot.
inductive Op
  | quiet
  | broken
  | written (prev schema : Schema) (id : String) (saved : Bool)
  | squashed (schema : Schema) (id : String)

-- The commands, by where they end.
inductive Step : Op → Project → Project → Prop
  -- Any command that ends before it changes anything.
  | stopped (p : Project) : Step .quiet p p
  -- An error of the file system amid the writing of a migration or the moves of
  -- a squash.
  | broken (p : Project) (f : Folder) :
      Step .broken p ⟨⟨some f, p.site.table⟩, p.snapshot, p.origin⟩
  -- The texts of migrations are edited, as a backfill asks for.
  | edited (p : Project) (f : Folder) : f.ids = p.folder.ids →
      Step .quiet p ⟨⟨some f, p.site.table⟩, p.snapshot, p.origin⟩
  | createOnly (p : Project) (host : Host) (schema : Schema) (acceptDataLoss : Bool) (id : String)
      (w : Draft) (f : Folder) :
      draft host p schema acceptDataLoss = some w → writeMigration c p.folder id w = some f →
        Step (.written w.prev schema id false) p
          ⟨⟨some f, p.site.table⟩, p.snapshot, record p id w.prev schema⟩
  -- Applying fails or is cut short, or generating the client fails after it.
  | unsaved (p : Project) (host : Host) (schema : Schema) (acceptDataLoss : Bool) (id : String)
      (w : Draft) (f : Folder) (v : World Unit (Store Unit) Stage) :
      draft host p schema acceptDataLoss = some w → writeMigration c p.folder id w = some f →
      Reach (((⟨some f, p.site.table⟩ : Site).deployment c).step fun _ => acceptDataLoss)
        (⟨some f, p.site.table⟩ : Site).alone v →
        Step (.written w.prev schema id false) p
          ⟨⟨some f, v.shared.table⟩, p.snapshot, record p id w.prev schema⟩
  -- The snapshot is overwritten last of all, perhaps not to its end.
  | completed (p : Project) (host : Host) (schema : Schema) (acceptDataLoss : Bool) (id : String)
      (w : Draft) (f : Folder) (v : World Unit (Store Unit) Stage) (applied : List String)
      (file : FileContent Schema) :
      draft host p schema acceptDataLoss = some w → writeMigration c p.folder id w = some f →
      Reach (((⟨some f, p.site.table⟩ : Site).deployment c).step fun _ => acceptDataLoss)
        (⟨some f, p.site.table⟩ : Site).alone v → v.party () = .finished (.ok applied) →
      file = .content schema ∨ file = .unreadable ∨ file = .malformed →
        Step (.written w.prev schema id true) p
          ⟨⟨some f, v.shared.table⟩, file, record p id w.prev schema⟩
  | deployed (p : Project) (v : World Unit (Store Unit) Stage) :
      Reach ((p.site.deployment c).step fun _ => false) p.site.alone v →
        Step .quiet p ⟨⟨p.site.folder, v.shared.table⟩, p.snapshot, p.origin⟩
  -- Nothing is pending, something is applied, and it is what is on disk. Then
  -- the table is cleared and the baseline is resolved, perhaps not to the end.
  | squashed (p : Project) (host : Host) (schema : Schema) (id : String) (w : Draft) (f : Folder)
      (table : Option Tracking) :
      (∀ m ∈ p.folder.ids, m ∈ p.site.rows.appliedIds) → p.folder.ids ≠ [] →
      Migrator.verifyChecksums c.sha256 p.site.folder p.site.rows.live = .ok () →
      baseline host schema = some w → writeMigration c p.folder.archived id w = some f →
        Step (.squashed schema id) p ⟨⟨some f, table⟩, p.snapshot, record p id w.prev schema⟩

-- Where the history of the directory has led, and what the next one starts from.
structure Coherent (p : Project) (current : Content) : Prop where
  replayed : replay .empty p.history = some current
  untouched : p.snapshot = .absent → current = .empty
  snapshot : ∀ prev, p.snapshot = .content prev → prev.content = current

-- A migration that is written comes last, and the snapshot is saved with it
-- unless nothing changes. A squash is of the schema of the snapshot.
def Good (p : Project) : Op → Prop
  | .quiet => True
  | .broken => False
  | .written prev schema id saved =>
      (∀ other ∈ p.folder.ids, compare id other ≠ .lt) ∧
        (saved = true ∨ schema.content = prev.content) ∧
          (p.snapshot = .absent → schema.datasource.extensions = [])
  | .squashed schema _ =>
      schema.datasource.extensions = [] ∧ (p.snapshot = .absent → schema.content = .empty) ∧
        ∀ prev, p.snapshot = .content prev → prev.content = schema.content

def GoodStep (p p' : Project) : Prop := ∃ op, Step c op p p' ∧ p.Good op

end Project

-- Each migration was diffed from what those before it reach, and the next one
-- will be.
structure Project.Follows (c : Site.Setting) (p : Project) (current : Content) : Prop where
  replayed : replay .empty p.history = some current
  last : ∀ o, p.history.getLast? = some o → o.schema.content = current
  next : ∀ prev schema id saved p', Project.Step c (.written prev schema id saved) p p' →
    p.Good (.written prev schema id saved) → prev.content = current

theorem replay_append (current : Content) (a b : List Origin) :
    replay current (a ++ b) = (replay current a).bind fun mid => replay mid b := by
  induction a generalizing current with
  | nil => rfl
  | cons o rest ih =>
      rw [List.cons_append, replay, replay]
      split
      · exact ih _
      · rfl

theorem replay_last {current final : Content} {history : List Origin} {o : Origin}
    (h : replay current history = some final) (hlast : history.getLast? = some o) :
    o.schema.content = final := by
  obtain ⟨init, rfl⟩ := List.getLast?_eq_some_iff.mp hlast
  rw [replay_append] at h
  obtain ⟨mid, _, hone⟩ := Option.bind_eq_some_iff.mp h
  rw [replay] at hone
  split at hone
  · exact Option.some.inj hone
  · cases hone

namespace Folder

variable {f f' : Folder} {dir : Subdir}

theorem add_eq_some (h : f.add dir = some f') :
    dir.name ∉ f.names ∧ f'.subdirs = f.subdirs ++ [dir] := by
  unfold add at h
  split at h
  · cases h
  · rename_i hnew
    obtain rfl := Option.some.inj h
    exact ⟨hnew, rfl⟩

theorem mem_ids {id : String} (h : id ∈ f.ids) : id ∈ f.names := by
  obtain ⟨dir, hdir, rfl⟩ := List.mem_map.mp h
  have hmem := (insertionSortBy_perm _ _).mem_iff.mp hdir
  exact List.mem_map_of_mem (List.mem_filter.mp hmem).1

-- What is not before anything sorted goes to the end.
theorem insertionSortBy_concat {α : Type} {cmp : α → α → Ordering} {l : List α} {a : α}
    (h : ∀ b ∈ l, cmp a b ≠ .lt) :
    insertionSortBy cmp (l ++ [a]) = insertionSortBy cmp l ++ [a] := by
  have hback : ∀ b ∈ l.foldl (fun sorted a => place cmp a sorted) [], cmp a b ≠ .lt := by
    intro b hb
    have := (foldl_place_perm cmp l []).mem_iff.mp hb
    rw [List.append_nil] at this
    exact h b this
  unfold insertionSortBy
  rw [List.foldl_append, List.foldl_cons, List.foldl_nil]
  cases hsorted : l.foldl (fun sorted a => place cmp a sorted) [] with
  | nil => rfl
  | cons b rest =>
      rw [hsorted] at hback
      unfold place
      rw [if_neg (hback b (List.mem_cons_self ..)), List.reverse_cons]

theorem ids_add (h : f.add dir = some f') (hup : Migrator.hasUp dir = true)
    (hlast : ∀ other ∈ f.ids, compare dir.name other ≠ .lt) : f'.ids = f.ids ++ [dir.name] := by
  obtain ⟨_, hsubdirs⟩ := add_eq_some h
  unfold ids
  rw [hsubdirs, List.filter_append, List.filter_singleton, hup]
  rw [show (bif true then [dir] else []) = [dir] from rfl, insertionSortBy_concat]
  · rw [List.map_append, List.map_singleton]
  · intro b hb
    refine hlast b.name ?_
    unfold ids
    exact List.mem_map_of_mem ((insertionSortBy_perm _ _).mem_iff.mpr hb)

theorem ids_archived : f.archived.ids = [] := by
  unfold ids archived
  rw [List.filter_filter]
  have hnone : f.subdirs.filter (fun dir => Migrator.hasUp dir && !Migrator.hasUp dir) = [] := by
    rw [List.filter_eq_nil_iff]
    intro dir _
    simp
  rw [hnone]
  rfl

end Folder

namespace Project

variable {c : Site.Setting} {p p' : Project} {current : Content}

theorem draft_prev {host : Host} {schema : Schema} {acceptDataLoss : Bool} {w : Draft}
    (h : draft host p schema acceptDataLoss = some w) :
    loadSnapshot p.snapshot schema = some w.prev := by
  unfold draft at h
  obtain ⟨prev, hprev, h⟩ := Option.bind_eq_some_iff.mp h
  dsimp only at h
  split at h
  · cases h
  · obtain ⟨up, _, h⟩ := Option.bind_eq_some_iff.mp h
    obtain ⟨down, _, h⟩ := Option.bind_eq_some_iff.mp h
    obtain rfl := Option.some.inj h
    exact hprev

theorem content_emptyLike {schema : Schema} (h : schema.datasource.extensions = []) :
    schema.emptyLike.content = .empty := by
  unfold Schema.content Schema.emptyLike
  dsimp only
  rw [h]
  rfl

-- The snapshot is where the history has led.
theorem Coherent.prev (hc : p.Coherent current) {schema prev : Schema}
    (hload : loadSnapshot p.snapshot schema = some prev)
    (hextensions : p.snapshot = .absent → schema.datasource.extensions = []) :
    prev.content = current := by
  unfold loadSnapshot at hload
  split at hload
  · rename_i habsent
    obtain rfl := Option.some.inj hload
    rw [hc.untouched habsent]
    exact content_emptyLike (hextensions habsent)
  · rename_i stored hstored
    obtain rfl := Option.some.inj hload
    exact hc.snapshot _ hstored
  · cases hload

-- Provenance is recorded under a new name.
theorem history_record {f f' : Folder} {dir : Subdir} (origin : String → Option Origin) (o : Origin)
    (h : f.add dir = some f') (hids : f'.ids = f.ids ++ [dir.name]) :
    f'.ids.filterMap (Function.update origin dir.name (some o)) = f.ids.filterMap origin ++ [o] := by
  have hnew := (Folder.add_eq_some h).1
  rw [hids, List.filterMap_append, List.filterMap_cons_some (Function.update_self ..),
    List.filterMap_nil]
  congr 1
  refine List.filterMap_congr fun id hid => ?_
  refine Function.update_of_ne (fun heq => hnew ?_) _ _
  rw [← heq]
  exact Folder.mem_ids hid

theorem written_history {id : String} {w : Draft} {schema : Schema} {f : Folder}
    {table : Option Tracking} {file : FileContent Schema}
    (hwrite : writeMigration c p.folder id w = some f)
    (hlast : ∀ other ∈ p.folder.ids, compare id other ≠ .lt) :
    history ⟨⟨some f, table⟩, file, record p id w.prev schema⟩ = p.history ++ [⟨w.prev, schema⟩] :=
  history_record _ _ hwrite (Folder.ids_add hwrite rfl hlast)

theorem squashed_history {id : String} {w : Draft} {schema : Schema} {f : Folder}
    {table : Option Tracking} {file : FileContent Schema}
    (hwrite : writeMigration c p.folder.archived id w = some f) :
    history ⟨⟨some f, table⟩, file, record p id w.prev schema⟩ = [⟨w.prev, schema⟩] := by
  have hids := Folder.ids_add hwrite rfl (by simp [Folder.ids_archived])
  have h := history_record p.origin ⟨w.prev, schema⟩ hwrite hids
  rwa [Folder.ids_archived, List.filterMap_nil, List.nil_append] at h

-- A migration diffed from where the history leads extends it.
theorem Coherent.written (hc : p.Coherent current) {schema : Schema} {w : Draft} {id : String}
    {f : Folder} {table : Option Tracking} {file : FileContent Schema}
    (hwrite : writeMigration c p.folder id w = some f) (hprev : w.prev.content = current)
    (hlast : ∀ other ∈ p.folder.ids, compare id other ≠ .lt)
    (hfile : file = .content schema ∨ file = .unreadable ∨ file = .malformed ∨
      file = p.snapshot ∧ schema.content = w.prev.content) :
    Coherent ⟨⟨some f, table⟩, file, record p id w.prev schema⟩ schema.content := by
  refine ⟨?_, ?_, ?_⟩
  · rw [written_history hwrite hlast, replay_append, hc.replayed]
    simp [replay, hprev]
  · intro habsent
    rcases hfile with rfl | rfl | rfl | ⟨rfl, hsame⟩
    · cases habsent
    · cases habsent
    · cases habsent
    · rw [hsame, hprev]
      exact hc.untouched habsent
  · intro prev hstored
    rcases hfile with rfl | rfl | rfl | ⟨rfl, hsame⟩
    · rw [FileContent.content.inj hstored]
    · cases hstored
    · cases hstored
    · rw [hsame, hprev]
      exact hc.snapshot prev hstored

theorem step_coherent (hc : p.Coherent current) (h : GoodStep c p p') :
    ∃ current', p'.Coherent current' := by
  obtain ⟨op, hstep, hgood⟩ := h
  cases hstep with
  | stopped => exact ⟨current, hc⟩
  | broken => exact hgood.elim
  | edited _ f hids =>
      refine ⟨current, ?_, hc.untouched, hc.snapshot⟩
      have hsame : history ⟨⟨some f, p.site.table⟩, p.snapshot, p.origin⟩ = p.history :=
        congrArg (List.filterMap p.origin) hids
      rw [hsame]
      exact hc.replayed
  | createOnly _ host schema accept id w f hdraft hwrite =>
      obtain ⟨hlast, hsame, hext⟩ := hgood
      exact ⟨_, hc.written hwrite (hc.prev (draft_prev hdraft) hext) hlast
        (Or.inr (Or.inr (Or.inr ⟨rfl, hsame.resolve_left (by simp)⟩)))⟩
  | unsaved _ host schema accept id w f v hdraft hwrite _ =>
      obtain ⟨hlast, hsame, hext⟩ := hgood
      exact ⟨_, hc.written hwrite (hc.prev (draft_prev hdraft) hext) hlast
        (Or.inr (Or.inr (Or.inr ⟨rfl, hsame.resolve_left (by simp)⟩)))⟩
  | completed _ host schema accept id w f v applied file hdraft hwrite _ _ hfile =>
      obtain ⟨hlast, _, hext⟩ := hgood
      refine ⟨_, hc.written hwrite (hc.prev (draft_prev hdraft) hext) hlast ?_⟩
      rcases hfile with h | h | h
      · exact Or.inl h
      · exact Or.inr (Or.inl h)
      · exact Or.inr (Or.inr (Or.inl h))
  | deployed _ v _ => exact ⟨current, hc.replayed, hc.untouched, hc.snapshot⟩
  | squashed _ host schema id w f table _ _ _ hbase hwrite =>
      obtain ⟨hext, habsent, hstored⟩ := hgood
      have hprev : w.prev = schema.emptyLike := by
        unfold baseline at hbase
        obtain ⟨up, _, h⟩ := Option.bind_eq_some_iff.mp hbase
        obtain ⟨down, _, h⟩ := Option.bind_eq_some_iff.mp h
        obtain rfl := Option.some.inj h
        rfl
      refine ⟨schema.content, ?_, habsent, hstored⟩
      rw [squashed_history hwrite, hprev]
      simp [replay, content_emptyLike hext]

theorem run_coherent (hc : p.Coherent current) (h : Relation.ReflTransGen (GoodStep c) p p') :
    ∃ current', p'.Coherent current' := by
  induction h with
  | refl => exact ⟨current, hc⟩
  | tail _ hstep ih =>
      obtain ⟨mid, hmid⟩ := ih
      exact step_coherent hmid hstep

theorem Coherent.follows (hc : p.Coherent current) : p.Follows c current := by
  refine ⟨hc.replayed, fun o ho => replay_last hc.replayed ho, ?_⟩
  intro prev schema id saved p' hstep hgood
  obtain ⟨_, _, hext⟩ := hgood
  cases hstep with
  | createOnly _ host schema accept id w f hdraft _ => exact hc.prev (draft_prev hdraft) hext
  | unsaved _ host schema accept id w f v hdraft _ _ => exact hc.prev (draft_prev hdraft) hext
  | completed _ host schema accept id w f v applied file hdraft _ _ _ _ =>
      exact hc.prev (draft_prev hdraft) hext

def fresh : Project := ⟨⟨none, none⟩, .absent, fun _ => none⟩

def users : Schema := (Build.schema "sqlite" [Build.model "User" [Build.idField] []]).lowered

def drafted : Draft := (draft Host.std fresh users false).getD ⟨users, "", "", false⟩

theorem draft_users : draft Host.std fresh users false = some drafted := by
  have h : (draft Host.std fresh users false).isSome = true := by decide +kernel
  obtain ⟨w, hw⟩ := Option.isSome_iff_exists.mp h
  unfold drafted
  rw [hw]
  rfl

def usersDir (id : String) : Subdir :=
  migrationDir Site.sqlite id drafted.up drafted.down drafted.destructive

def once : Folder := ⟨[usersDir "1767_a"], List.nodup_singleton _⟩

def twice : Folder := ⟨[usersDir "1767_a", usersDir "1768_b"], by
  change ["1767_a", "1768_b"].Nodup
  decide⟩

def onceSite : Site := ⟨some once, none⟩

theorem write_once : writeMigration Site.sqlite fresh.folder "1767_a" drafted = some once := rfl

theorem write_twice : writeMigration Site.sqlite once "1768_b" drafted = some twice := by
  unfold writeMigration Folder.add
  have h : (migrationDir Site.sqlite "1768_b" drafted.up drafted.down drafted.destructive).name ∉
      once.names := by
    change "1768_b" ∉ ["1767_a"]
    decide
  rw [dif_neg h]
  rfl

end Project

end Ruprizzle
