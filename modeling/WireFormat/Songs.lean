import WireFormat.Schema.Basic

/-! A catalogue of songs in two revisions: schemas that show how readers and writers of
different age understand each other. -/
namespace WireFormat.Songs

/-- Name, identifier and date of birth. -/
def musician : Schema := .record .text [.scalar .guid, .scalar .date]

/-- Title and year. -/
def songV1 : Schema := .message [.text, .scalar .uint16]

/-- Title, year and performers. -/
def songV2 : Schema := .message [.text, .scalar .uint16, .array musician]

def library : Schema := .record (.map .hashed (.scalar .guid) songV2) []

/-- Title, year and performers, each of which may be missing. -/
def indexedSong : Schema := .indexed [.text, .scalar .uint16, .array musician]

/-- Title, year, performers and rating, each of which may be missing. -/
def indexedSongV2 : Schema :=
  .indexed [.text, .scalar .uint16, .array musician, .scalar .float64]

def coltrane : musician.Val :=
  ("John Coltrane",
    ⟨#v[0x00, 0x11, 0x22, 0x33, 0x44, 0x55, 0x66, 0x77,
      0x88, 0x99, 0xaa, 0xbb, 0xcc, 0xdd, 0xee, 0xff]⟩,
    ⟨607699584000000000⟩, ())

def giantSteps : songV2.Val := ("Giant Steps", 1959, [coltrane], ())

/-- Two songs, the one with the larger identifier first. -/
def shelf : library.Val :=
  (⟨[(⟨.replicate 16 9⟩, giantSteps), (.zero, ("Naïma", 1960, [], ()))], by
    rw [List.pairwise_pair]; decide⟩, ())

end WireFormat.Songs
