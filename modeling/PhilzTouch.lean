import PhilzTouch.VerifierReads
import PhilzTouch.Minzip.SignedParse
import PhilzTouch.Minzip.Subtree
import PhilzTouch.Minzip.DirUtil
import PhilzTouch.ApplyPatch.BsdiffSafe
import PhilzTouch.ApplyPatch.SearchLongest
import PhilzTouch.ApplyPatch.ImgpatchAccess
import PhilzTouch.ApplyPatch.ImgpatchReports
import PhilzTouch.ApplyPatch.ImgdiffImages
import PhilzTouch.ApplyPatch.Check
import PhilzTouch.ApplyPatch.RetouchFootprint
import PhilzTouch.ApplyPatch.FreeCache
import PhilzTouch.ApplyPatch.WriteVerified
import PhilzTouch.ApplyPatch.LoadPartition
import PhilzTouch.ApplyPatch.Sha1Text
import PhilzTouch.Dedupe.RoundTrip
import PhilzTouch.Dedupe.GcRestore
import PhilzTouch.Dedupe.CopyFile
import PhilzTouch.Mtd.WriteRead
import PhilzTouch.Edify.Laziness
import PhilzTouch.Edify.ArgumentOrder
import PhilzTouch.Edify.FileGetProp
import PhilzTouch.Recovery.BootMessage
import PhilzTouch.Recovery.Logs
import PhilzTouch.Recovery.Wipe
import PhilzTouch.Recovery.Md5Cancel
import PhilzTouch.Recovery.Keys
import PhilzTouch.Recovery.Screen
import PhilzTouch.Vold.Framing
import PhilzTouch.Settings.ConfigMap
import PhilzTouch.Twrp.Coverage
import PhilzTouch.Adb.MemorySafe
