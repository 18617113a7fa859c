import LiveSketch.Gallery.Basic

/-!
# Tutorials

Sketches that explain a command each.
-/
namespace LiveSketch.Gallery

/-- The tutorials, in the order in which they are listed. -/
def tutorials : List Sketch := [
  ⟨"intro", "Intro", "intro", [
    "// Lines beginning with two",
    "// slashes (like these) are just comments.",
    "",
    "// Everything else is run",
    "// about 30 to 60 times per second",
    "// in order to create an animation.",
    "",
    "// Click the link below to start the tutorial.",
    "",
    "// next-tutorial:hello_world"]⟩,
  ⟨"hello-world", "Intro", "hello world", [
    "// type these three letters",
    "// in one of these empty lines below:",
    "// 'b' and 'o' and 'x'",
    "",
    "",
    "",
    "// (you should then see a box facing you)",
    "// click below for the next tutorial",
    "// next-tutorial:some_notes"]⟩,
  ⟨"some-notes", "Intro", "some notes", [
    "// If this makes sense to you:",
    "// the syntax is similar to Coffeescript",
    "// and the commands are almost",
    "// like Processing.",
    "",
    "// If this doesn't make sense to you",
    "// don't worry.",
    "",
    "// next-tutorial:rotate"]⟩,
  ⟨"rotate", "Intro", "a taste of animation", [
    "// now that we have a box",
    "// let's rotate it:",
    "// type 'rotate 1' in the",
    "// line before the 'box'",
    "",
    "",
    "box",
    "",
    "// click for the next tutorial:",
    "// next-tutorial:frame"]⟩,
  ⟨"frame", "Animation", "frame", [
    "// make the box spin",
    "// by replacing '1' with 'frame'",
    "",
    "rotate 1",
    "box",
    "",
    "// 'frame' contains a number",
    "// always incrementing as",
    "// the screen is re-drawn.",
    "// (use 'frame/100' to slow it down)",
    "// next-tutorial:time"]⟩,
  ⟨"time", "Animation", "time", [
    "// 'frame/100' has one problem:",
    "// faster computers will make",
    "// the cube spin too fast.",
    "// Replace it with 'time/2000'.",
    "",
    "rotate frame/100",
    "box",
    "",
    "// 'time' counts the",
    "// number of milliseconds since",
    "// the program started, so it's",
    "// independent of how fast",
    "// the computer is at drawing.",
    "// next-tutorial:move"]⟩,
  ⟨"move", "Placing things", "move", [
    "// you can move any object",
    "// by using 'move'",
    "",
    "box",
    "move 1,1,0",
    "box",
    "",
    "// try to use a rotate before",
    "// the first box to see how the",
    "// scene changes.",
    "// next-tutorial:scale"]⟩,
  ⟨"scale", "Placing things", "scale", [
    "// you can make an object bigger",
    "// or smaller by using 'scale'",
    "",
    "rotate 3",
    "box",
    "move 1",
    "scale 2",
    "box",
    "",
    "// try to use scale or move before",
    "// the first box to see how the",
    "// scene changes.",
    "// next-tutorial:times"]⟩,
  ⟨"times", "Repeating stuff", "times", [
    "// 'times' (not to be confused with",
    "// 'time'!) can be used to",
    "// repeat operations like so:",
    "",
    "rotate 1",
    "3 times ->",
    "\tmove 0.2,0.2,0.2",
    "\tbox",
    "",
    "// note how the tabs indicate",
    "// exactly the block of code",
    "// to be repeated.",
    "// next-tutorial:fill"]⟩,
  ⟨"fill", "Graphics", "fill", [
    "// 'fill' changes the",
    "// color of all the faces:",
    "",
    "rotate 1",
    "fill 255,255,0",
    "box",
    "",
    "// the three numbers indicate ",
    "// red green and blue values.",
    "// You can also use color names such as 'indigo'",
    "// Try replacing the numbers with",
    "// 'angleColor'",
    "// next-tutorial:stroke"]⟩,
  ⟨"stroke", "Graphics", "stroke", [
    "// 'stroke' changes all the",
    "// edges:",
    "",
    "rotate 1",
    "strokeSize 5",
    "stroke 255,255,255",
    "box",
    "",
    "// the three numbers are RGB",
    "// but you can also use the color names",
    "// or the special color 'angleColor'",
    "// Also you can use 'strokeSize'",
    "// to specify the thickness.",
    "// next-tutorial:color_names"]⟩,
  ⟨"color-names", "Graphics", "color by name", [
    "// you can call colors by name",
    "// try to un-comment one line:",
    "//fill greenyellow",
    "//fill indigo",
    "//fill lemonchiffon // whaaaat?",
    "",
    "rotate 1",
    "box",
    "",
    "// more color names here:",
    "// http://html-color-codes.info/color-names/",
    "// (just use them in lower case)",
    "// next-tutorial:lights"]⟩,
  ⟨"lights", "Graphics", "lights", [
    "// 'ambientLight' creates an",
    "// ambient light so things have",
    "// some sort of shading:",
    "",
    "ambientLight 0,255,255",
    "rotate time/1000",
    "box",
    "",
    "// you can turn that light on and ",
    "// off while you build the scene",
    "// by using 'lights' and 'noLights'",
    "// next-tutorial:background"]⟩,
  ⟨"background", "Graphics", "background", [
    "// 'background' creates a",
    "// solid background:",
    "",
    "background 0,0,255",
    "rotate time/1000",
    "box",
    "",
    "// next-tutorial:gradient"]⟩,
  ⟨"gradient", "Graphics", "gradient", [
    "// even nicer, you can paint a",
    "// background gradient:",
    "",
    "simpleGradient color(190,10,10),color(30,90,100),color(0)",
    "rotate time/1000",
    "box",
    "",
    "// next-tutorial:line"]⟩,
  ⟨"line", "Graphics", "line", [
    "// draw lines like this:",
    "",
    "20 times ->",
    "\trotate time/9000",
    "\tline",
    "",
    "// next-tutorial:ball"]⟩,
  ⟨"ball", "Graphics", "ball", [
    "// draw balls like this:",
    "",
    "ballDetail 10",
    "3 times ->",
    "\tmove 0.2,0.2,0.2",
    "\tball",
    "",
    "// ('ballDetail' is optional)",
    "// next-tutorial:pushpopMatrix"]⟩,
  ⟨"push-pop-matrix", "Graphics", "push and pop", [
    "// pushMatrix creates a bookmark of",
    "// the position, which you can",
    "// return to later by using popMatrix.",
    "// You can reset using 'resetMatrix'.",
    "",
    "rotate time/1000",
    "pushMatrix // bookmark the position after the rotation",
    "line",
    "move 0.5,0,0",
    "line",
    "popMatrix // go back to the bookmarked position",
    "move -0.5,0,0",
    "line",
    "resetMatrix // resets the position",
    "line // not affected by initial rotation",
    "// next-tutorial:animation_style"]⟩,
  ⟨"animation-style", "Graphics", "animation style", [
    "// try uncommenting either line",
    "// with the animationStyle",
    "",
    "background 255",
    "//animationStyle motionBlur",
    "//animationStyle paintOver",
    "rotate frame/10",
    "box",
    "",
    "// next-tutorial:do_once"]⟩,
  ⟨"do-once", "Controlling the flow", "do once", [
    "// delete either check mark below",
    "",
    "rotate time/1000",
    "✓doOnce ->",
    "\tbackground 255",
    "\tfill 255,0,0",
    "✓doOnce -> ball",
    "box",
    "",
    "// ...the line or block of code",
    "// are ran one time only, after that the",
    "// check marks immediately re-appear",
    "// P.S. keep hitting the delete button",
    "// on that first check mark for seizures.",
    "// next-tutorial:conditionals"]⟩,
  ⟨"conditionals", "Controlling the flow", "conditionals", [
    "// you can draw different things",
    "// (or in general do different things)",
    "// based on any",
    "// test condition you want:",
    "",
    "rotate",
    "if frame%3 == 0",
    "\tbox",
    "else if frame%3 == 1",
    "\tball",
    "else",
    "\tpeg",
    "",
    "// next-tutorial:autocode"]⟩,
  ⟨"autocode", "Others", "autocode", [
    "// the Autocode button invents random",
    "// variations for you.",
    "",
    "// You can interrupt the Autocoder at",
    "// any time by pressing the button again,",
    "// or you can press CTRL-Z",
    "// (or CMD-Z on Macs) to undo (or re-do) some of",
    "// the steps even WHILE the autocoder is running,",
    "// if you see that things got",
    "// boring down a particular path of changes."]⟩]

end LiveSketch.Gallery
